import Ucorf.Scripts
import Ucorf.Threads
import Ucorf.ZookeeperUrl

/-!
# The zookeeper client

`ZookeeperClient` with the part of the world that it leans on: the handles that
`zookeeper_init` returned, the coroutines that wait to connect or to create a node
again, and a record of the calls that leave the class. Each method runs under
`mutex_`, so an action is one method call, with the answers of the server as a script.
-/
namespace Ucorf.Zookeeper

open Ucorf.Message
open Ucorf.Scripts
open Ucorf.Threads
open Ucorf.ZookeeperUrl

def zOk : Int := 0
def zNoNode : Int := -101
def zNodeExists : Int := -110

def zooSessionEvent : Int := -1
def zooChildEvent : Int := 4
def zooConnectedState : Int := 3

def zooEphemeral : Nat := 1
def zooSequence : Nat := 2

inductive CreateNodeFlags where
  | normal
  | ephemeral
  | sequence
  deriving DecidableEq, Repr

/-- The arguments of `__watcher_fn`. -/
structure Event where
  zh : Nat
  type : Int
  state : Int
  path : Bytes
  deriving DecidableEq, Repr

/-- An answer of the server; `children` is what `zoo_get_children` fills in. -/
structure Answer where
  ret : Int
  children : List Bytes
  deriving DecidableEq, Repr

/-- A call that leaves the class, on the handle that it uses. -/
inductive Op where
  | create : Option Nat → Bytes → Nat → Int → Op
  | getChildren : Option Nat → Bytes → Answer → Op
  | delete : Option Nat → Bytes → Int → Op
  | notify : Nat → List Bytes → Op -- a `WatchCb` is called
  deriving DecidableEq, Repr

/-- Keys are addresses and callbacks are named by numbers. -/
abbrev WatcherMap := Std.ExtTreeMap Nat Nat

/-- `opened` counts the handles of `zookeeper_init` and names the next one, `closed` are
the arguments of `zookeeper_close`, `connects` counts the `Connect` coroutines and
`retries` are the paths of the waiting retry coroutines. -/
structure ZookeeperClient where
  zk : Option Nat
  watchers : Std.ExtTreeMap Bytes WatcherMap
  ephemeralNodes : Std.ExtTreeSet Bytes
  eventChan : List Event
  opened : Nat
  closed : List Nat
  connects : Nat
  retries : List Bytes
  log : List Op

namespace ZookeeperClient

def addOp (s : ZookeeperClient) (op : Op) : ZookeeperClient := { s with log := s.log ++ [op] }

def addRetry (s : ZookeeperClient) (path : Bytes) : ZookeeperClient :=
  { s with retries := s.retries ++ [path] }

def addNode (s : ZookeeperClient) (path : Bytes) : ZookeeperClient :=
  { s with ephemeralNodes := s.ephemeralNodes.insert path }

def removeNode (s : ZookeeperClient) (path : Bytes) : ZookeeperClient :=
  { s with ephemeralNodes := s.ephemeralNodes.erase path }

/-- `zk_watchers_[path]`, which is there afterwards. -/
def watchersAt (s : ZookeeperClient) (path : Bytes) : WatcherMap := s.watchers[path]?.getD ∅

def setWatchers (s : ZookeeperClient) (path : Bytes) (m : WatcherMap) : ZookeeperClient :=
  { s with watchers := s.watchers.insert path m }

/-- The coroutine that waits to connect is there from `Init` on. -/
def init : ZookeeperClient := ⟨none, ∅, ∅, [], 0, [], 1, [], []⟩

end ZookeeperClient

abbrev Zk := Script ZookeeperClient Answer

def zooCreate (path : Bytes) (flags : Nat) : Zk Int := do
  let a ← ask
  update fun s => s.addOp (.create s.zk path flags a.ret)
  return a.ret

def zooGetChildren (path : Bytes) : Zk Answer := do
  let a ← ask
  update fun s => s.addOp (.getChildren s.zk path a)
  return a

def zooDelete (path : Bytes) : Zk Int := do
  let a ← ask
  update fun s => s.addOp (.delete s.zk path a.ret)
  return a.ret

/-- The prefixes of the path that end before a slash, the first byte apart. -/
def parents (path : Bytes) : List Bytes :=
  ((List.range path.length).filter fun p => 1 ≤ p && path[p]? == some slash).map path.take

/-- The loop over the parents that `CreateNode` and `DelayCreateEphemeralNode` share. -/
def createParents : List Bytes → Zk Bool
  | [] => return true
  | parent :: rest => do
    let ret ← zooCreate parent 0
    if ret ≠ zOk ∧ ret ≠ zNodeExists then return false else createParents rest

def createFlags : CreateNodeFlags → Nat
  | .normal => 0
  | .ephemeral => zooEphemeral
  | .sequence => zooSequence

/-- `CreateNode` after the parents. -/
def createLeaf (path : Bytes) (flags : CreateNodeFlags) : Zk Bool := do
  let ret ← zooCreate path (createFlags flags)
  if ret ≠ zOk ∧ ret ≠ zNodeExists then return false
  else do
    update fun s => if flags = .ephemeral then s.addNode path else s
    return true

def createNode (path : Bytes) (flags : CreateNodeFlags) (recursive : Bool) : Zk Bool := do
  let zk ← view ZookeeperClient.zk
  if zk = none then return false
  else do
    let ok ← (if recursive then createParents (parents path) else pure true : Zk Bool)
    if ok then createLeaf path flags else return false

/-- `DelayCreateEphemeralNode` after the parents. -/
def delayCreateLeaf (path : Bytes) : Zk Bool := do
  let ret ← zooCreate path zooEphemeral
  if ret = zOk then return true
  else if ret = zNodeExists then do
    update fun s => s.addRetry path
    return true
  else return false

def delayCreateEphemeralNode (path : Bytes) : Zk Bool := do
  update fun s => s.addNode path
  let zk ← view ZookeeperClient.zk
  if zk = none then return true
  else do
    let ok ← createParents (parents path)
    if ok then delayCreateLeaf path else return false

/-- The retry coroutine after its three seconds. -/
def retry (path : Bytes) : Zk Unit := do
  let wanted ← view fun s => s.ephemeralNodes.contains path
  if wanted then do
    let _ ← delayCreateEphemeralNode path
    return ()
  else return ()

def deleteNode (path : Bytes) : Zk Bool := do
  let zk ← view ZookeeperClient.zk
  if zk = none then return false
  else do
    let ret ← zooDelete path
    if ret ≠ zOk ∨ ret ≠ zNoNode then return false
    else do
      update fun s => s.removeNode path
      return true

/-- The callbacks of a children list: the given one, or all that watch the path. -/
def notifyWatchers (path : Bytes) (cb : Option Nat) (children : List Bytes) : Zk Unit :=
  update fun s =>
    match cb with
    | some f => s.addOp (.notify f children)
    | none =>
      let m := s.watchersAt path
      { s.setWatchers path m with log := s.log ++ m.toList.map fun kv => .notify kv.2 children }

/-- The `retry` loop of `__Watch`: each round asks at least once, so `n` rounds are
enough for a script with fewer than `n` answers. -/
def watchLoop (path : Bytes) (cb : Option Nat) : Nat → Zk Bool
  | 0 => fun _ => none
  | n + 1 => do
    let a ← zooGetChildren path
    if a.ret = zOk then do
      notifyWatchers path cb a.children
      return true
    else if a.ret = zNoNode then do
      let ok ← createNode path .normal true
      if ok then watchLoop path cb n else return false
    else return false

/-- `__Watch`. -/
def fetchChildren (path : Bytes) (cb : Option Nat) : Zk Bool := do
  let zk ← view ZookeeperClient.zk
  if zk = none then return false
  else fun p => watchLoop path cb (p.2.length + 1) p

def watch (path : Bytes) (cb key : Nat) : Zk Bool := do
  let m ← view fun s => s.watchersAt path
  if m.contains key then do
    update fun s => s.setWatchers path m
    return false
  else do
    update fun s => s.setWatchers path (m.insert key cb)
    let zk ← view ZookeeperClient.zk
    if zk = none then return true
    else do
      let ok ← fetchChildren path (some cb)
      if ok then do
        update fun s => s.setWatchers path ((s.watchersAt path).erase key)
        return false
      else return true

def unwatch (path : Bytes) (key : Nat) : Zk Unit :=
  update fun s =>
    match s.watchers[path]? with
    | none => s
    | some m => s.setWatchers path (m.erase key)

/-- The loop of `OnWatch` over `zk_watchers_`. -/
def fetchAll : List Bytes → Zk Unit
  | [] => return ()
  | path :: rest => do
    let _ ← fetchChildren path none
    fetchAll rest

/-- The loop of `OnWatch` over `ephemeral_nodes_`. -/
def createAll : List Bytes → Zk Unit
  | [] => return ()
  | path :: rest => do
    let _ ← delayCreateEphemeralNode path
    createAll rest

def onConnected (zh : Nat) : Zk Unit := do
  update fun s => { s with zk := some zh }
  let paths ← view fun s => s.watchers.keys
  fetchAll paths
  let nodes ← view fun s => s.ephemeralNodes.toList
  createAll nodes

/-- Close the handle and connect anew. -/
def onLost (s : ZookeeperClient) : ZookeeperClient :=
  match s.zk with
  | some h => { s with zk := none, closed := s.closed ++ [h], connects := s.connects + 1 }
  | none => { s with connects := s.connects + 1 }

def onWatch (e : Event) : Zk Unit :=
  if e.type = zooSessionEvent then
    if e.state = zooConnectedState then onConnected e.zh else update onLost
  else if e.type = zooChildEvent then do
    let _ ← fetchChildren e.path none
    return ()
  else return ()

/-- A `Connect` coroutine runs; after a failure it starts another one. -/
def connect (s : ZookeeperClient) (ok : Bool) : ZookeeperClient :=
  if ok then { s with opened := s.opened + 1, connects := s.connects - 1 } else s

inductive Action where
  | connect : Bool → Action
  | enqueue : Event → Action
  | onWatch : List Answer → Action
  | retry : Bytes → List Answer → Action
  | watch : Bytes → Nat → Nat → List Answer → Action
  | unwatch : Bytes → Nat → Action
  | createNode : Bytes → CreateNodeFlags → Bool → List Answer → Action
  | delayCreateEphemeralNode : Bytes → List Answer → Action
  | deleteNode : Bytes → List Answer → Action
  deriving DecidableEq, Repr

/-- A handle that `zookeeper_init` returned and nobody closed. -/
def ZookeeperClient.isOpen (s : ZookeeperClient) (h : Nat) : Bool := h < s.opened && h ∉ s.closed

/-- An open handle may report an event as long as the channel has room. -/
def step (s : ZookeeperClient) : Action → Option ZookeeperClient
  | .connect ok => if s.connects = 0 then none else some (connect s ok)
  | .enqueue e =>
    if s.isOpen e.zh ∧
    s.eventChan.length < 128 then some { s with eventChan := s.eventChan ++ [e] } else none
  | .onWatch answers =>
    match s.eventChan with
    | [] => none
    | e :: rest => (exec (onWatch e) { s with eventChan := rest } answers).map Prod.snd
  | .retry path answers =>
    if path ∈ s.retries
      then (exec (retry path) { s with retries := s.retries.erase path } answers).map Prod.snd
    else none
  | .watch path cb key answers => (exec (watch path cb key) s answers).map Prod.snd
  | .unwatch path key => (exec (unwatch path key) s []).map Prod.snd
  | .createNode path flags recursive answers =>
      (exec (createNode path flags recursive) s answers).map Prod.snd
  | .delayCreateEphemeralNode path answers =>
      (exec (delayCreateEphemeralNode path) s answers).map Prod.snd
  | .deleteNode path answers => (exec (deleteNode path) s answers).map Prod.snd

end Ucorf.Zookeeper
