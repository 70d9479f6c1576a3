import Ucorf.Threads
import Ucorf.ZookeeperUrl

/-!
# The server finder

`ServerFinder` as threads over its data members: one for each children notification,
each disconnect of a transport, each reconnect attempt, and for the destructor. The
handlers take `destroy_mutex_` with `try_lock` and give up when somebody else has it;
the destructor waits for it. A handler may be suspended inside `Shutdown` and
`on_disconnect_`, so these are sections of their own.
-/
namespace Ucorf.Finder

open Ucorf.Message
open Ucorf.Threads
open Ucorf.ZookeeperUrl

inductive EMode where
  | single
  | zk
  deriving DecidableEq, Repr

/-- A transport as the finder sees it, with the url that its callbacks are bound to. -/
structure Transport where
  url : Bytes
  estab : Bool
  shutdowns : Nat
  deriving DecidableEq, Repr

/-- Transports are named by their position among those the finder made. -/
abbrev TransportGroup := Std.ExtTreeMap Bytes (Option Nat)

/-- `onDisconnect` tells whether `on_disconnect_` is set, and `calls` are its calls with
the notification that each was made for. `connects` are the calls of `on_connect_`. -/
structure ServerFinder where
  onDisconnect : Bool
  mode : EMode
  singleTp : Option Nat
  transports : TransportGroup
  token : Bool
  locked : Bool
  tps : List Transport
  calls : List (Nat × Nat × BoostEc)
  connects : List Nat

namespace ServerFinder

def setTransport (s : ServerFinder) (tp : Nat) (f : Transport → Transport) : ServerFinder :=
  { s with tps := s.tps.modify tp f }

/-- A `Connect` succeeds, and the transport calls `on_connect_`, whoever is left to hear it. -/
def connected (s : ServerFinder) (tp : Nat) : ServerFinder :=
  { s.setTransport tp fun t => { t with estab := true } with connects := s.connects ++ [tp] }

def dropped (s : ServerFinder) (tp : Nat) : ServerFinder :=
  s.setTransport tp fun t => { t with estab := false }

def shutdown (s : ServerFinder) (tp : Nat) : ServerFinder :=
  s.setTransport tp fun t => { t with estab := false, shutdowns := t.shutdowns + 1 }

def isEstab (s : ServerFinder) (tp : Nat) : Bool := s.tps[tp]?.any Transport.estab

/-- The finder itself holds a reference to the transport. -/
def holds (s : ServerFinder) (tp : Nat) (url : Bytes) : Bool :=
  s.singleTp = some tp || s.transports[url]? = some (some tp)

/-- The finder still has a use for the url. -/
def wants (s : ServerFinder) (url : Bytes) : Bool := s.mode = .single || s.transports.contains url

end ServerFinder

inductive ChildsExit where
  | contended
  | dead
  | applied
  deriving DecidableEq, Repr

inductive DiscExit where
  | contended
  | dead
  | unreferenced
  | called
  deriving DecidableEq, Repr

inductive RetryExit where
  | connected
  | established
  | contended
  | dead
  | unwanted
  | rescheduled
  deriving DecidableEq, Repr

inductive ChildsPc where
  | notified
  | holding
  | shutting : List Nat → ChildsPc
  | leaving : ChildsExit → ChildsPc
  | returned : ChildsExit → ChildsPc
  deriving DecidableEq, Repr

inductive DiscPc where
  | broken
  | notified
  | holding
  | calling
  | leaving : DiscExit → DiscPc
  | returned : DiscExit → DiscPc
  deriving DecidableEq, Repr

inductive RetryPc where
  | connecting
  | sleeping
  | woken
  | holding
  | passing
  | going
  | leaving : RetryExit → RetryPc
  | returned : RetryExit → RetryPc
  deriving DecidableEq, Repr

inductive DestroyPc where
  | entered
  | holding
  | expired
  | done
  deriving DecidableEq, Repr

inductive ReconnectPc where
  | entered
  | returned : BoostEc → ReconnectPc
  deriving DecidableEq, Repr

inductive Thread where
  | childs : List Bytes → ChildsPc → Thread
  | disc : Nat → BoostEc → DiscPc → Thread
  | retry : Nat → Bytes → RetryPc → Thread
  | reconnect : ReconnectPc → Thread
  | destroy : DestroyPc → Thread
  deriving DecidableEq, Repr

inductive Label where
  | tryLock
  | apply
  | shutdown
  | drop
  | check : Bool → Label -- whether somebody else holds a reference to the transport
  | call
  | connect : BoostEc → Label
  | wake
  | decide
  | go
  | lock
  | expire
  | unlock
  deriving DecidableEq, Repr

/-- The loop of `OnZookeeperChilds`: the finder, `tp_group` and the started attempts. -/
structure Reconcile where
  finder : ServerFinder
  group : TransportGroup
  started : List Thread

def onNode (r : Reconcile) (node : Bytes) : Reconcile :=
  let url := zookeeperNode2Url node
  match r.finder.transports[url]? with
  | some old =>
    -- `tp_group[url].swap(transports_[url])`
    { r with
      finder := { r.finder with
        transports := r.finder.transports.insert url (r.group[url]?.getD none) }
      group := r.group.insert url old }
  | none =>
    let tp := r.finder.tps.length
    { finder := { r.finder with tps := r.finder.tps ++ [⟨url, false, 0⟩] }
      group := r.group.insert url (some tp)
      started := r.started ++ [.retry tp url .connecting] }

def reconcile (s : ServerFinder) (nodes : List Bytes) : Reconcile := nodes.foldl onNode ⟨s, ∅, []⟩

/-- What the old group still holds after the swap. -/
def missing (group : TransportGroup) : List Nat := group.toList.filterMap Prod.snd

/-- `ServerFinder::OnZookeeperChilds`. -/
def childsNext (s : ServerFinder) (nodes : List Bytes) :
    ChildsPc → Label → Option (ServerFinder × ChildsPc × List Thread)
  | .notified, .tryLock =>
    if s.locked then some (s, .returned .contended, [])
      else some ({ s with locked := true }, .holding, [])
  | .holding, .apply =>
    if s.token then
      let r := reconcile s nodes
      some ({ r.finder with transports := r.group },
        .shutting (missing r.finder.transports), r.started)
    else some (s, .leaving .dead, [])
  | .shutting (tp :: tps), .shutdown => some (s.shutdown tp, .shutting tps, [])
  | .shutting [], .unlock => some ({ s with locked := false }, .returned .applied, [])
  | .leaving e, .unlock => some ({ s with locked := false }, .returned e, [])
  | _, _ => none

/-- `ServerFinder::OnDisconnected`, after the connection of the transport is gone. -/
def discNext (self : Nat) (s : ServerFinder) (tp : Nat) (ec : BoostEc) :
    DiscPc → Label → Option (ServerFinder × DiscPc × List Thread)
  | .broken, .drop => some (s.dropped tp, .notified, [])
  | .notified, .tryLock =>
    if s.locked then some (s, .returned .contended, [])
      else some ({ s with locked := true }, .holding, [])
  | .holding, .check elsewhere =>
    match s.tps[tp]? with
    | none => none
    | some t =>
      if !s.token then some (s, .leaving .dead, [])
      else if !(elsewhere || s.holds tp t.url) then some (s, .leaving .unreferenced, [])
      else some (s, .calling, if s.wants t.url then [.retry tp t.url .connecting] else [])
  | .calling, .call =>
    some (if s.onDisconnect then { s with calls := s.calls ++ [(self, tp, ec)] } else s,
      .leaving .called, [])
  | .leaving e, .unlock => some ({ s with locked := false }, .returned e, [])
  | _, _ => none

/-- `ServerFinder::RecursiveConnect`. -/
def retryNext (s : ServerFinder) (tp : Nat) (url : Bytes) :
    RetryPc → Label → Option (ServerFinder × RetryPc × List Thread)
  | .connecting, .connect ec =>
    if ec.failed then some (s, .sleeping, []) else some (s.connected tp, .returned .connected, [])
  | .sleeping, .wake => some (s, if s.isEstab tp then .returned .established else .woken, [])
  | .woken, .tryLock =>
    if s.locked then some (s, .returned .contended, [])
      else some ({ s with locked := true }, .holding, [])
  | .holding, .decide =>
    if !s.token then some (s, .leaving .dead, [])
    else if !s.wants url then some (s, .leaving .unwanted, [])
    else some (s, .passing, [])
  | .passing, .unlock => some ({ s with locked := false }, .going, [])
  | .going, .go => some (s, .returned .rescheduled, [.retry tp url .connecting])
  | .leaving e, .unlock => some ({ s with locked := false }, .returned e, [])
  | _, _ => none

/-- `ServerFinder::ReConnect`. -/
def reconnectNext (s : ServerFinder) : ReconnectPc → Label → Option (ServerFinder × ReconnectPc)
  | .entered, .connect ec =>
    match s.mode, s.singleTp with
    | .zk, _ => some (s, .returned (makeUcorfErrorCode .ecNoEstab))
    | .single, none => none
    | .single, some tp =>
      if s.isEstab tp then some (s, .returned .ok)
      else some (if ec.failed then s else s.connected tp, .returned ec)
  | _, _ => none

/-- `ServerFinder::~ServerFinder`. -/
def destroyNext (s : ServerFinder) : DestroyPc → Label → Option (ServerFinder × DestroyPc)
  | .entered, .lock => if s.locked then none else some ({ s with locked := true }, .holding)
  | .holding, .expire => some ({ s with token := false }, .expired)
  | .expired, .unlock => some ({ s with locked := false }, .done)
  | _, _ => none

def threadNext (s : ServerFinder) (self : Nat) :
    Thread → Label → Option (ServerFinder × Thread × List Thread)
  | .childs nodes pc, a => (childsNext s nodes pc a).map fun r => (r.1, .childs nodes r.2.1, r.2.2)
  | .disc tp ec pc, a => (discNext self s tp ec pc a).map fun r => (r.1, .disc tp ec r.2.1, r.2.2)
  | .retry tp url pc, a => (retryNext s tp url pc a).map fun r => (r.1, .retry tp url r.2.1, r.2.2)
  | .reconnect pc, a => (reconnectNext s pc a).map fun r => (r.1, .reconnect r.2, [])
  | .destroy pc, a => (destroyNext s pc a).map fun r => (r.1, .destroy r.2, [])

/-- Attempts are started by the handlers only. -/
def isStart : Thread → Bool
  | .childs _ .notified => true
  | .disc _ _ .broken => true
  | .reconnect .entered => true
  | .destroy .entered => true
  | _ => false

def program : Program ServerFinder Thread Label where
  start := isStart
  next := threadNext

abbrev State := System ServerFinder Thread

/-- After `Init`: with a plain url the single transport is there and `ReConnect` runs. -/
def start (onDisconnect : Bool) : EMode → Bytes → State
  | .zk, _ => ⟨⟨onDisconnect, .zk, none, ∅, true, false, [], [], []⟩, []⟩
  | .single, url =>
    ⟨⟨onDisconnect, .single, some 0, ∅, true, false, [⟨url, false, 0⟩], [], []⟩,
      [.reconnect .entered]⟩

end Ucorf.Finder
