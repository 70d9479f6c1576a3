import Ucorf.ZookeeperRegister
import Ucorf.ZookeeperWatch

/-!
# The watches of the finders

`Init` registers the finder under its own address, and the destructor takes the entry out
if the finder knows its zookeeper. But `Init` never tells it, so an entry stays behind
when its finder is gone, and the next finder at the address is not registered.
-/
namespace Ucorf.FinderWatches

open Ucorf.Message
open Ucorf.Scripts
open Ucorf.Threads
open Ucorf.ZookeeperUrl
open Ucorf.Zookeeper
open Ucorf.ZookeeperFrames
open Ucorf.ZookeeperRegister
open Ucorf.ZookeeperWatch

/-- What `Watch` and the destructor see of a finder. The callback is bound to the `token`,
and `unanswered` records that an `Init` got no children list. -/
structure ServerFinder where
  token : Nat
  zkAddr : Bytes
  zkPath : Bytes
  unanswered : Bool
  deriving DecidableEq, Repr

/-- The clients of the manager, and the finders that are alive by address. -/
structure World where
  zkClients : ZookeeperClientMgr
  finders : Std.ExtTreeMap Nat ServerFinder
  tokens : Nat

namespace World

def client (s : World) (host : Bytes) : ZookeeperClient := getZookeeperClient s.zkClients host

def setClient (s : World) (host : Bytes) (c : ZookeeperClient) : World :=
  { s with zkClients := s.zkClients.insert host c }

def setFinder (s : World) (this : Nat) (f : ServerFinder) : World :=
  { s with finders := s.finders.insert this f }

end World

/-- The server gave a children list of the path. -/
def answered (path : Bytes) (ops : List Op) : Bool :=
  ops.any fun
    | .getChildren _ p a => p = path && a.ret = zOk
    | _ => false

def ServerFinder.asked (f : ServerFinder) (path : Bytes) (ops : List Op) : ServerFinder :=
  { f with unanswered := f.unanswered || !answered path ops }

/-- `ServerFinder::ServerFinder`. -/
def construct (s : World) (this : Nat) : World :=
  { s.setFinder this ⟨s.tokens, [], [], false⟩ with tokens := s.tokens + 1 }

/-- `ServerFinder::Init`; with a plain url there is nothing to watch. -/
def init (s : World) (this : Nat) (f : ServerFinder) (url : Bytes) (answers : List Answer) :
    Option World :=
  if startsWithZk url then
    let (addr, path) := parseZookeeperUrl url
    if addr = [] then some s
    -- nothing is stored in `zk_addr_` and `zk_path_`
    else (exec (watch path f.token this) (s.client addr) answers).map fun r =>
      (s.setClient addr r.2).setFinder this (f.asked path (newOps (s.client addr) r.2))
  else some s

/-- `ServerFinder::~ServerFinder`. -/
def destroy (s : World) (this : Nat) (f : ServerFinder) : Option World :=
  let gone := { s with finders := s.finders.erase this }
  if f.zkAddr = [] then some gone
  else (exec (unwatch f.zkPath this) (s.client f.zkAddr) []).map fun r =>
    gone.setClient f.zkAddr r.2

inductive Action where
  | construct : Nat → Action
  | init : Nat → Bytes → List Answer → Action
  | destroy : Nat → Action
  | getZookeeperClient : Bytes → Action
  | zookeeper : Bytes → Zookeeper.Action → Action
  deriving DecidableEq, Repr

/-- `Watch` and `Unwatch` are called by finders only. -/
def byFinder : Zookeeper.Action → Bool
  | .watch _ _ _ _ | .unwatch _ _ => true
  | _ => false

/-- A finder is allocated where none is alive. -/
def step (s : World) : Action → Option World
  | .construct this => if this ∈ s.finders then none else some (construct s this)
  | .init this url answers =>
    match s.finders[this]? with
    | none => none
    | some f => init s this f url answers
  | .destroy this =>
    match s.finders[this]? with
    | none => none
    | some f => destroy s this f
  | .getZookeeperClient host => some (s.setClient host (s.client host))
  | .zookeeper host act =>
    match s.zkClients[host]? with
    | none => none
    | some c => if byFinder act then none else (Zookeeper.step c act).map (s.setClient host)

def start : World := ⟨∅, ∅, 0⟩

/-- The value under the key in the `WatcherMap` of the path. -/
def entry (s : World) (host path : Bytes) (key : Nat) : Option Nat :=
  ((s.client host).watchersAt path)[key]?

section Watchers

/-- No `WatcherMap` has changed. -/
def SameWatchers (s s' : ZookeeperClient) : Prop := ∀ path, s'.watchersAt path = s.watchersAt path

theorem same_core (s s' : ZookeeperClient) (h : s'.watchers = s.watchers) : SameWatchers s s' := by
  intro path
  rw [ZookeeperClient.watchersAt, ZookeeperClient.watchersAt, h]

/-- The calls of the zookeeper library leave the watchers alone. -/
theorem same_frame (f : Option Nat) : FetchFrame SameWatchers f where
  refl _ _ := rfl
  trans _ _ _ h h' path := (h' path).trans (h path)
  create s _ _ _ := same_core s _ rfl
  addRetry s _ := same_core s _ rfl
  addNode s _ := same_core s _ rfl
  asked s _ _ _ := same_core s _ rfl
  notified _ p a _ path := watchersAt_notified _ p path f a.children

/-- So do all steps that are none of the finder. -/
theorem same_step {s s' : ZookeeperClient} {act : Zookeeper.Action} (hact : byFinder act = false)
    (h : Zookeeper.step s act = some s') : SameWatchers s s' := by
  refine (same_frame none).step_respects (fun s s' hw _ _ => same_core s s' hw)
    (fun s _ _ => same_core s _ rfl) ?_ ?_ h
  · rintro path f key answers rfl
    cases hact
  · rintro path key rfl
    cases hact

/-- `__Watch` tells whether it was given a list. -/
theorem answered_iff_fetched {path : Bytes} {ops : List Op} :
    answered path ops = true ↔ ∃ children, Fetched path ops children := by
  rw [answered, List.any_eq_true]
  constructor
  · rintro ⟨op, hmem, hop⟩
    split at hop
    · rename_i zh p a
      rw [Bool.and_eq_true] at hop
      obtain ⟨hp, hret⟩ := hop
      obtain rfl := of_decide_eq_true hp
      exact ⟨a.children, zh, a, hmem, of_decide_eq_true hret, rfl⟩
    · cases hop
  · rintro ⟨children, zh, a, hmem, hret, -⟩
    exact ⟨_, hmem, by simp [hret]⟩

theorem newOps_setWatchers (s : ZookeeperClient) (path : Bytes) (m : WatcherMap) :
    newOps s (s.setWatchers path m) = [] := by
  rw [newOps, show (s.setWatchers path m).log = s.log from rfl, List.drop_length]

variable {s s' : ZookeeperClient} {path : Bytes} {cb key : Nat} {answers : List Answer} {ok : Bool}

theorem watchersAt_self (p : Bytes) :
    (s.setWatchers path (s.watchersAt path)).watchersAt p = s.watchersAt p := by
  rw [watchersAt_setWatchers]
  split
  · subst p
    rfl
  · rfl

/-- A registration is one entry. -/
theorem getElem?_inserted (p : Bytes) (k : Nat) :
    ((s.setWatchers path ((s.watchersAt path).insert key cb)).watchersAt p)[k]? =
      if path = p ∧ key = k then some cb else (s.watchersAt p)[k]? := by
  rw [watchersAt_setWatchers]
  by_cases hp : path = p
  · subst hp
    rw [if_pos rfl, Std.ExtTreeMap.getElem?_insert]
    simp
  · simp [hp]

/-- Its removal is the removal of one entry. -/
theorem getElem?_erased (p : Bytes) (k : Nat) :
    ((s.setWatchers path ((s.watchersAt path).erase key)).watchersAt p)[k]? =
      if path = p ∧ key = k then none else (s.watchersAt p)[k]? := by
  rw [watchersAt_setWatchers]
  by_cases hp : path = p
  · subst hp
    rw [if_pos rfl, Std.ExtTreeMap.getElem?_erase]
    simp
  · simp [hp]

/-- What `Watch` does to the entries: its own one is added, and that exactly when it gets
no children list. -/
structure Entered (path : Bytes) (cb key : Nat) (s s' : ZookeeperClient) : Prop where
  entries : ∀ p k, (s'.watchersAt p)[k]? = (s.watchersAt p)[k]? ∨
    (k = key ∧ (s'.watchersAt p)[k]? = some cb ∧ answered path (newOps s s') = false)
  own : answered path (newOps s s') = false → key ∈ s'.watchersAt path

theorem entered_insert {t : ZookeeperClient} (hans : answered path (newOps s t) = false)
    (hsame : SameWatchers (s.setWatchers path ((s.watchersAt path).insert key cb)) t) :
    Entered path cb key s t where
  entries := by
    intro p k
    rw [hsame, getElem?_inserted]
    split
    · rename_i hk
      exact .inr ⟨hk.2.symm, rfl, hans⟩
    · exact .inl rfl
  own := by
    intro _
    rw [hsame, watchersAt_setWatchers, if_pos rfl]
    exact Std.ExtTreeMap.mem_insert_self

/-- When the children are fetched the key is taken out again, and it was not there before. -/
theorem entered_erase {t : ZookeeperClient} (hkey : key ∉ s.watchersAt path)
    (hsame : SameWatchers (s.setWatchers path ((s.watchersAt path).insert key cb)) t)
    (hans : answered path (newOps s (t.setWatchers path ((t.watchersAt path).erase key))) = true) :
    Entered path cb key s (t.setWatchers path ((t.watchersAt path).erase key)) where
  entries := by
    intro p k
    left
    rw [getElem?_erased, hsame, getElem?_inserted]
    split
    · rename_i hk
      obtain ⟨rfl, rfl⟩ := hk
      rw [Std.ExtTreeMap.getElem?_eq_none hkey]
    · rfl
  own := by
    intro hbad
    rw [hans] at hbad
    cases hbad

/-- `Watch` leaves the entry unless a list came at once. -/
theorem watch_entered (h : exec (watch path cb key) s answers = some (ok, s')) :
    Entered path cb key s s' := by
  obtain ⟨hkey, -, rfl⟩ | ⟨-, -, -, rfl⟩ | ⟨hkey, hzk, fetched, t, hfetch, -, hs'⟩ := watch_cases h
  · constructor
    · intro p k
      rw [watchersAt_self]
      exact .inl rfl
    · intro _
      rw [watchersAt_self]
      exact hkey
  · refine entered_insert ?_ fun _ => rfl
    rw [newOps_setWatchers]
    rfl
  · have hsame : SameWatchers (s.setWatchers path ((s.watchersAt path).insert key cb)) t :=
      ((same_frame (some cb)).respects_fetchChildren path).exec hfetch
    have hiff := fetched_iff_newOps hzk hfetch hs'
    rw [← answered_iff_fetched] at hiff
    cases fetched with
    | true =>
      rw [if_pos rfl] at hs'
      subst hs'
      exact entered_erase hkey hsame (hiff.mp rfl)
    | false =>
      rw [if_neg Bool.false_ne_true] at hs'
      subst hs'
      refine entered_insert ?_ hsame
      rw [Bool.eq_false_iff]
      intro hans
      cases hiff.mpr hans

/-- Without a session there is an entry, be it an older one. -/
theorem mem_of_watch (hzk : s.zk = none) (h : exec (watch path cb key) s answers = some (ok, s')) :
    key ∈ s'.watchersAt path := by
  obtain ⟨hkey, -, rfl⟩ | ⟨-, -, -, rfl⟩ | ⟨-, hsome, -⟩ := watch_cases h
  · rw [watchersAt_self]
    exact hkey
  · rw [watchersAt_setWatchers, if_pos rfl]
    exact Std.ExtTreeMap.mem_insert_self
  · exact absurd hzk hsome

end Watchers

section Steps

theorem client_setClient (s : World) (h : Bytes) (c : ZookeeperClient) (host : Bytes) :
    (s.setClient h c).client host = if h = host then c else s.client host := by
  simp only [World.client, getZookeeperClient, World.setClient, Std.ExtTreeMap.getElem?_insert,
    Std.LawfulEqCmp.compare_eq_iff_eq]
  split <;> rfl

theorem getElem?_setFinder (s : World) (this : Nat) (f : ServerFinder) (key : Nat) :
    (s.setFinder this f).finders[key]? = if this = key then some f else s.finders[key]? := by
  simp only [World.setFinder, Std.ExtTreeMap.getElem?_insert, Std.LawfulEqCmp.compare_eq_iff_eq]

/-- A client has its own entries. -/
theorem entry_setClient (s : World) (h : Bytes) (c : ZookeeperClient)
    (host path : Bytes) (key : Nat) :
    entry (s.setClient h c) host path key =
      if h = host then (c.watchersAt path)[key]? else entry s host path key := by
  rw [entry, client_setClient]
  split <;> rfl

@[simp] theorem entry_setFinder (s : World) (this : Nat) (f : ServerFinder)
    (host path : Bytes) (key : Nat) :
    entry (s.setFinder this f) host path key = entry s host path key := rfl

/-- A client whose `WatcherMap`s are what they were has the entries that it had. -/
theorem entry_same {s : World} {host : Bytes} {c : ZookeeperClient}
    (hc : SameWatchers (s.client host) c) (h path : Bytes)
    (key : Nat) : entry (s.setClient host c) h path key = entry s h path key := by
  rw [entry_setClient]
  split
  · subst h
    rw [hc, entry]
  · rfl

/-- A url without the scheme does not parse. -/
theorem startsWithZk_of_addr {url : Bytes} (h : (parseZookeeperUrl url).1 ≠ []) :
    startsWithZk url = true := by
  by_contra hno
  rw [parseZookeeperUrl, if_neg hno] at h
  exact h rfl

variable {s s' : World} {act : Action} {this : Nat} {url : Bytes} {answers : List Answer}

/-- An `Init` watches the path of its url on the host, if there is one. -/
theorem init_cases {f : ServerFinder} (h : init s this f url answers = some s') :
    ((parseZookeeperUrl url).1 = [] ∧ s' = s) ∨
    ((parseZookeeperUrl url).1 ≠ [] ∧ ∃ ok c,
      exec (watch (parseZookeeperUrl url).2 f.token this)
        (s.client (parseZookeeperUrl url).1) answers = some (ok, c) ∧
      s' = (s.setClient (parseZookeeperUrl url).1 c).setFinder this
        (f.asked (parseZookeeperUrl url).2 (newOps (s.client (parseZookeeperUrl url).1) c))) := by
  simp only [init] at h
  by_cases haddr : (parseZookeeperUrl url).1 = []
  · left
    rw [if_pos haddr, ite_self] at h
    cases h
    exact ⟨haddr, rfl⟩
  · right
    rw [if_pos (startsWithZk_of_addr haddr), if_neg haddr, Option.map_eq_some_iff] at h
    obtain ⟨⟨ok, c⟩, hwatch, rfl⟩ := h
    exact ⟨haddr, ok, c, hwatch, rfl⟩

/-- What an `Init` does to the finder and to the entries. -/
structure Inited (s s' : World) (this : Nat) (f f' : ServerFinder) : Prop where
  token : f'.token = f.token
  addr : f'.zkAddr = f.zkAddr
  finders : ∀ key, s'.finders[key]? = if this = key then some f' else s.finders[key]?
  entries : ∀ host path key, entry s' host path key = entry s host path key ∨
    (key = this ∧ entry s' host path key = some f.token ∧ f'.unanswered = true)
  kept : f.unanswered = true → f'.unanswered = true
  left : f'.unanswered = true → f.unanswered = true ∨ ∃ host path, entry s' host path this ≠ none

/-- What `Init` does, by the kind of its url. -/
theorem init_inited {f : ServerFinder} (hf : s.finders[this]? = some f)
    (h : init s this f url answers = some s') :
    ∃ f', Inited s s' this f f' := by
  obtain ⟨-, rfl⟩ | ⟨-, ok, c, hwatch, rfl⟩ := init_cases h
  · refine ⟨f, rfl, rfl, ?_, fun _ _ _ => .inl rfl, id, .inl⟩
    intro key
    split
    · subst key
      exact hf
    · rfl
  · have hc := watch_entered hwatch
    generalize (parseZookeeperUrl url).1 = addr at *
    generalize (parseZookeeperUrl url).2 = path at *
    refine ⟨f.asked path (newOps (s.client addr) c), rfl, rfl, getElem?_setFinder _ _ _, ?_, ?_, ?_⟩
    · intro host p key
      rw [entry_setFinder, entry_setClient]
      split
      · subst host
        obtain hsame | ⟨hkey, hcb, hans⟩ := hc.entries p key
        · exact .inl hsame
        · exact .inr ⟨hkey, hcb, by simp [ServerFinder.asked, hans]⟩
      · exact .inl rfl
    · intro hun
      simp [ServerFinder.asked, hun]
    · intro hun
      cases hans : answered path (newOps (s.client addr) c) with
      | true =>
        left
        simpa [ServerFinder.asked, hans] using hun
      | false =>
        right
        refine ⟨addr, path, ?_⟩
        rw [entry_setFinder, entry_setClient, if_pos rfl, ← Option.isSome_iff_ne_none,
          ← Std.ExtTreeMap.mem_iff_isSome_getElem?]
        exact hc.own hans

/-- What a step does, where no finder knows its zookeeper. -/
theorem step_cases (hs : ∀ (key : Nat) (f : ServerFinder), s.finders[key]? = some f → f.zkAddr = [])
    (h : step s act = some s') :
    (∃ this, act = .construct this ∧ this ∉ s.finders ∧ s' = construct s this) ∨
    (∃ this url answers f f', act = .init this url answers ∧ s.finders[this]? = some f ∧
      Inited s s' this f f') ∨
    (∃ this f, act = .destroy this ∧ s.finders[this]? = some f ∧
      s' = { s with finders := s.finders.erase this }) ∨
    (s'.finders = s.finders ∧ ∀ host path key, entry s' host path key = entry s host path key) := by
  cases act with
  | construct this =>
    simp only [step] at h
    split at h <;> cases h
    exact .inl ⟨this, rfl, by assumption, rfl⟩
  | init this url answers =>
    simp only [step] at h
    split at h
    · cases h
    · rename_i f hf
      obtain ⟨f', hinit⟩ := init_inited hf h
      exact .inr (.inl ⟨this, url, answers, f, f', rfl, hf, hinit⟩)
  | destroy this =>
    simp only [step] at h
    split at h
    · cases h
    · rename_i f hf
      rw [destroy, if_pos (hs this f hf)] at h
      cases h
      exact .inr (.inr (.inl ⟨this, f, rfl, hf, rfl⟩))
  | getZookeeperClient host =>
    cases h
    exact .inr (.inr (.inr ⟨rfl, entry_same fun _ => rfl⟩))
  | zookeeper host act =>
    simp only [step] at h
    split at h
    · cases h
    · rename_i c hc
      split at h
      · cases h
      · rename_i hfinder
        obtain ⟨c', hc', rfl⟩ := Option.map_eq_some_iff.mp h
        have hclient : s.client host = c := by
          rw [World.client, getZookeeperClient, hc, Option.getD_some]
        have hsame := same_step (Bool.eq_false_iff.mpr hfinder) hc'
        rw [← hclient] at hsame
        exact .inr (.inr (.inr ⟨rfl, entry_same hsame⟩))

end Steps

section Runs

/-- In any run: no finder knows its zookeeper, and those that an `Init` left without a
children list have an entry. -/
structure Sound (s : World) : Prop where
  addr : ∀ (this : Nat) (f : ServerFinder), s.finders[this]? = some f → f.zkAddr = []
  left : ∀ (this : Nat) (f : ServerFinder), s.finders[this]? = some f → f.unanswered = true →
    ∃ host path, entry s host path this ≠ none

/-- Every entry belongs to a finder that is alive and is bound to its token. -/
def Owned (s : World) : Prop := ∀ host path key cb, entry s host path key = some cb →
  ∃ f, s.finders[key]? = some f ∧ f.token = cb ∧ f.unanswered = true

/-- No finder is destroyed that some `Init` left without a children list. -/
def Released (s : World) : Action → Prop
  | .destroy this => ∀ f : ServerFinder, s.finders[this]? = some f → f.unanswered = false
  | _ => True

variable {s s' : World} {act : Action} {acts : List Action}

theorem sound_start : Sound start where
  addr := by simp [start]
  left := by simp [start]

theorem owned_start : Owned start := by
  intro host path key cb h
  simp [entry, World.client, getZookeeperClient, start, ZookeeperClient.watchersAt,
    ZookeeperClient.init] at h

theorem Sound.construct (hs : Sound s) (this : Nat) : Sound (construct s this) where
  addr := by
    intro key f hf
    rw [FinderWatches.construct, getElem?_setFinder] at hf
    split at hf
    · cases hf
      rfl
    · exact hs.addr key f hf
  left := by
    intro key f hf hun
    rw [FinderWatches.construct, getElem?_setFinder] at hf
    split at hf
    · cases hf
      cases hun
    · exact hs.left key f hf hun

theorem Sound.init (hs : Sound s) {this : Nat} {f f' : ServerFinder}
    (hf : s.finders[this]? = some f)
    (hinit : Inited s s' this f f') : Sound s' where
  addr := by
    intro key g hg
    rw [hinit.finders] at hg
    split at hg
    · cases hg
      rw [hinit.addr]
      exact hs.addr this f hf
    · exact hs.addr key g hg
  left := by
    have hkept (key : Nat) (h : ∃ host path, entry s host path key ≠ none) :
        ∃ host path, entry s' host path key ≠ none := by
      obtain ⟨host, path, hne⟩ := h
      refine ⟨host, path, ?_⟩
      obtain hsame | ⟨-, hcb, -⟩ := hinit.entries host path key
      · rwa [hsame]
      · rw [hcb]
        exact Option.some_ne_none _
    intro key g hg hun
    rw [hinit.finders] at hg
    split at hg
    · subst key
      cases hg
      obtain hold | hnew := hinit.left hun
      · exact hkept this (hs.left this f hf hold)
      · exact hnew
    · exact hkept key (hs.left key g hg hun)

theorem Sound.destroy (hs : Sound s) (this : Nat) :
    Sound { s with finders := s.finders.erase this } := by
  have hback {key : Nat} {g : ServerFinder}
      (hg : (s.finders.erase this)[key]? = some g) : s.finders[key]? = some g := by
    rw [Std.ExtTreeMap.getElem?_erase] at hg
    split at hg
    · cases hg
    · exact hg
  constructor
  · intro key g hg
    exact hs.addr key g (hback hg)
  · intro key g hg hun
    exact hs.left key g (hback hg) hun

/-- Every step keeps that. -/
theorem sound_step (hs : Sound s) (h : step s act = some s') : Sound s' := by
  obtain ⟨this, rfl, -, rfl⟩ |
    ⟨this, url, answers, f, f', rfl, hf, hinit⟩ | ⟨this, f, rfl, -, rfl⟩ |
    ⟨hfinders, hentry⟩ :=
    step_cases hs.addr h
  · exact hs.construct this
  · exact hs.init hf hinit
  · exact hs.destroy this
  · constructor
    · rw [hfinders]
      exact hs.addr
    · simp only [hfinders, hentry]
      exact hs.left

theorem sound_run (h : run step start acts = some s) : Sound s :=
  run_invariant sound_start (fun _ _ _ hs hstep => sound_step hs hstep) h

/-- A finder that released its entries takes none with it. -/
theorem owned_step (hs : Sound s) (ho : Owned s) (hr : Released s act) (h : step s act = some s') :
    Owned s' := by
  obtain ⟨this, rfl, hfree, rfl⟩ | ⟨this, url, answers, f, f', rfl, hf, hinit⟩ |
    ⟨this, f, rfl, hf, rfl⟩ | ⟨hfinders, hentry⟩ :=
    step_cases hs.addr h
  · intro host path key cb hcb
    obtain ⟨f, hf, htoken⟩ := ho host path key cb hcb
    refine ⟨f, ?_, htoken⟩
    have hne : this ≠ key := by
      rintro rfl
      rw [Std.ExtTreeMap.getElem?_eq_none hfree] at hf
      cases hf
    rw [construct, getElem?_setFinder, if_neg hne]
    exact hf
  · intro host path key cb hcb
    obtain hsame | ⟨rfl, hown, hun⟩ := hinit.entries host path key
    · rw [hsame] at hcb
      obtain ⟨g, hg, htoken, hun⟩ := ho host path key cb hcb
      rw [hinit.finders]
      split
      · subst key
        rw [hf] at hg
        cases hg
        exact ⟨f', rfl, hinit.token.trans htoken, hinit.kept hun⟩
      · exact ⟨g, hg, htoken, hun⟩
    · rw [hown] at hcb
      cases hcb
      exact ⟨f', by rw [hinit.finders, if_pos rfl], hinit.token, hun⟩
  · intro host path key cb hcb
    obtain ⟨g, hg, htoken, hun⟩ := ho host path key cb hcb
    refine ⟨g, ?_, htoken, hun⟩
    have hne : this ≠ key := by
      rintro rfl
      rw [hr g hg] at hun
      cases hun
    simpa [Std.ExtTreeMap.getElem?_erase, hne] using hg
  · intro host path key cb hcb
    rw [hentry] at hcb
    rw [hfinders]
    exact ho host path key cb hcb

/-- In a run of such steps every entry belongs to a finder that is there. -/
theorem owned_run (hr : Guarded step Released start acts)
    (h : run step start acts = some s) : Owned s := by
  have hboth : Sound s ∧ Owned s :=
    guarded_invariant (I := fun s => Sound s ∧ Owned s) ⟨sound_start, owned_start⟩
    (fun _ _ _ hs hr hstep => ⟨sound_step hs.1 hstep, owned_step hs.1 hs.2 hr hstep⟩) hr h
  exact hboth.2

/-- No `WatcherMap` has an entry under an address where no finder is alive. -/
def Follows (s : World) : Prop := ∀ host path key, entry s host path key ≠ none → key ∈ s.finders

/-- An `Init` with a zookeeper url and before the session registers the callback of the finder. -/
def Registers (s s' : World) (this : Nat) (url : Bytes) : Prop :=
  (parseZookeeperUrl url).1 ≠ [] → (s.client (parseZookeeperUrl url).1).zk = none →
    ∀ f : ServerFinder, s.finders[this]? = some f →
    entry s' (parseZookeeperUrl url).1 (parseZookeeperUrl url).2 this = some f.token

/-- The watches follow the lifetimes of the finders throughout the run. -/
structure Lifetimes (acts : List Action) : Prop where
  follows : ∀ pre post s, acts = pre ++ post → run step start pre = some s → Follows s
  registers : ∀ pre this url answers post s s', acts = pre ++ .init this url answers :: post →
    run step start pre = some s → step s (.init this url answers) = some s' →
    Registers s s' this url

/-- So every entry is under the address of a finder that is there. -/
theorem follows_of_owned (ho : Owned s) : Follows s := by
  intro host path key hne
  obtain ⟨cb, hcb⟩ := Option.ne_none_iff_exists'.mp hne
  obtain ⟨f, hf, -⟩ := ho host path key cb hcb
  rw [Std.ExtTreeMap.mem_iff_isSome_getElem?, hf]
  rfl

theorem registers_of_owned {this : Nat} {url : Bytes} {answers : List Answer} (ho : Owned s')
    (h : step s (.init this url answers) = some s') : Registers s s' this url := by
  intro haddr hzk f hf
  simp only [step, hf] at h
  obtain ⟨f', hinit⟩ := init_inited hf h
  obtain ⟨hnone, -⟩ | ⟨-, ok, c, hwatch, rfl⟩ := init_cases h
  · exact absurd hnone haddr
  · have hmem := mem_of_watch hzk hwatch
    obtain ⟨cb, hcb⟩ : ∃ cb, (c.watchersAt (parseZookeeperUrl url).2)[this]? = some cb :=
      Option.isSome_iff_exists.mp (Std.ExtTreeMap.mem_iff_isSome_getElem?.mp hmem)
    have hentry : entry ((s.setClient (parseZookeeperUrl url).1 c).setFinder this
        (f.asked (parseZookeeperUrl url).2 (newOps (s.client (parseZookeeperUrl url).1) c)))
          (parseZookeeperUrl url).1 (parseZookeeperUrl url).2 this = some cb := by
      rw [entry_setFinder, entry_setClient, if_pos rfl, hcb]
    obtain ⟨g, hg, htoken, -⟩ := ho _ _ _ _ hentry
    rw [hinit.finders, if_pos rfl] at hg
    cases hg
    rw [hentry, ← htoken, hinit.token]

/-- Destroying a finder that an `Init` left without a children list leaves its entry behind. -/
theorem not_follows_destroy (hs : Sound s) {this : Nat} {f : ServerFinder}
    (hf : s.finders[this]? = some f)
    (hun : f.unanswered = true) : ∃ s', step s (.destroy this) = some s' ∧ ¬ Follows s' := by
  refine ⟨{ s with finders := s.finders.erase this }, ?_, ?_⟩
  · simp only [step, hf]
    rw [destroy, if_pos (hs.addr this f hf)]
  · intro hfollows
    obtain ⟨host, path, hne⟩ := hs.left this f hf hun
    have hmem := hfollows host path this hne
    simp at hmem

/-- The watches follow the lifetimes exactly in the runs that destroy no finder that an
`Init` left without a children list. -/
theorem lifetimes_iff (acts : List Action) : Lifetimes acts ↔ Guarded step Released start acts := by
  constructor
  · intro hl pre act post s hacts hs
    cases act with
    | destroy this =>
      intro f hf
      by_contra hun
      obtain ⟨s', hstep, hnot⟩ :=
        not_follows_destroy (sound_run hs) hf (Bool.eq_true_of_not_eq_false hun)
      refine hnot (hl.follows (pre ++ [.destroy this]) post s' ?_ ?_)
      · rw [hacts, List.append_assoc, List.singleton_append]
      · exact run_join hs (by simp [hstep])
    | _ => trivial
  · intro hr
    constructor
    · intro pre post s hacts hs
      subst hacts
      exact follows_of_owned (owned_run hr.left hs)
    · intro pre this url answers post s s' hacts hs hstep
      rw [← List.singleton_append, ← List.append_assoc] at hacts
      subst hacts
      exact registers_of_owned (owned_run hr.left (run_join hs (by simp [hstep]))) hstep

/-- The url `zk://h/p`. -/
def sampleUrl : Bytes := [122, 107, 58, 47, 47, 104, 47, 112]

/-- Two finders, one after the other at one address. -/
def staleRun : List Action := [.construct 1, .init 1 sampleUrl [], .destroy 1, .construct 1]

/-- The first one is still registered, and the second one is not. -/
theorem stale_not_followed :
    (¬ ∀ acts s, run step start acts = some s → Follows s) ∧
    (¬ ∀ acts this url answers s s', run step start acts = some s →
      step s (.init this url answers) = some s' →
    Registers s s' this url) ∧ ¬ ∀ acts, Lifetimes acts := by
  obtain ⟨s, hs, hstale⟩ := run_exists step start (staleRun.take 3)
    (fun s => (entry s [104] [47, 112] 1).isSome ∧ ¬ s.finders.contains 1) (by decide +kernel)
  obtain ⟨hentry, hgone⟩ := of_decide_eq_true hstale
  have hfollows : ¬ Follows s := by
    intro h
    exact hgone (Std.ExtTreeMap.contains_iff_mem.mpr
      (h _ _ 1 (Option.isSome_iff_ne_none.mp hentry)))
  obtain ⟨m, hm, hnext⟩ := run_exists step start staleRun
    (fun m => m.finders[1]?.any (fun f => f.token = 1) ∧ (m.client [104]).zk = none ∧
      (step m (.init 1 sampleUrl [])).any fun m' =>
      entry m' [104] [47, 112] 1 = some 0) (by decide +kernel)
  obtain ⟨hfinder, hzk, hinit⟩ := of_decide_eq_true hnext
  obtain ⟨f, hf, htoken⟩ := (Option.any_eq_true _ _).mp hfinder
  obtain ⟨m', hm', hold⟩ := (Option.any_eq_true _ _).mp hinit
  refine ⟨fun h => hfollows (h _ s hs), fun h => ?_, fun h =>
    hfollows ((h _).follows _ [] s (List.append_nil _).symm hs)⟩
  have hnew := h staleRun 1 sampleUrl [] m m' hm hm' (by decide) hzk f hf
  have hbad := hnew.symm.trans (of_decide_eq_true hold)
  rw [of_decide_eq_true htoken] at hbad
  cases hbad

end Runs

end Ucorf.FinderWatches
