import Ucorf.Zookeeper

/-!
# The zookeeper register

`ZookeeperRegister` over the clients of `ZookeeperClientMgr`, one for each host. A client
that is asked for the first time is made and initialised then.
-/
namespace Ucorf.ZookeeperRegister

open Ucorf.Message
open Ucorf.Scripts
open Ucorf.Zookeeper
open Ucorf.ZookeeperUrl

abbrev ZookeeperClientMgr := Std.ExtTreeMap Bytes ZookeeperClient

def getZookeeperClient (mgr : ZookeeperClientMgr) (zkHost : Bytes) : ZookeeperClient :=
  mgr[zkHost]?.getD .init

/-- Call a method of the client of a host. -/
def onClient {α : Type} (zkHost : Bytes) (x : Zk α) : Script ZookeeperClientMgr Answer α := fun p =>
  match x (getZookeeperClient p.1 zkHost, p.2) with
  | none => none
  | some (a, (s, rest)) => some (a, (p.1.insert zkHost s, rest))

/-- The multimap of hosts and paths, in its order. -/
structure Registered where
  destinations : List (Bytes × Bytes)
  deriving DecidableEq, Repr

/-- An insertion comes after the equal keys. -/
def Registered.insert (r : Registered) (addr path : Bytes) : Registered :=
  ⟨r.destinations.takeWhile (fun kv => compare kv.1 addr != .gt) ++ (addr, path) ::
    r.destinations.dropWhile fun kv => compare kv.1 addr != .gt⟩

/-- `ZookeeperRegister::Register`. -/
def register (r : Registered) (url srvInfo : Bytes) :
    Script ZookeeperClientMgr Answer (Bool × Registered) :=
  let addr := (parseZookeeperUrl url).1
  let zkNode := url2ZookeeperNode srvInfo
  if addr = [] then return (false, r)
  else if zkNode = [] then return (false, r)
  else do
    let path := (parseZookeeperUrl url).2 ++ [slash] ++ zkNode
    let ok ← onClient addr (delayCreateEphemeralNode path)
    return if ok then (true, r.insert addr path) else (false, r)

/-- `ServerImpl::RegisterTo`, over the `LocalUrl` of each transport. -/
def registerTo (url : Bytes) :
    List Bytes → Registered → Script ZookeeperClientMgr Answer (Bool × Registered)
  | [], r => return (true, r)
  | addr :: rest, r => do
    let registered ← register r url addr
    if registered.1 then registerTo url rest registered.2 else return (false, registered.2)

/-- The loop of `ZookeeperRegister::Unregister`. -/
def deleteAll : List (Bytes × Bytes) → Script ZookeeperClientMgr Answer Unit
  | [] => return ()
  | (addr, path) :: rest => do
    let _ ← onClient addr (deleteNode path)
    deleteAll rest

/-- `ZookeeperRegister::Unregister`, which keeps `destinations_`. -/
def unregister (r : Registered) : Script ZookeeperClientMgr Answer Unit := deleteAll r.destinations

/-- What a method respects for its own client, it respects for all of them. -/
theorem respects_onClient {α : Type} {R : ZookeeperClient → ZookeeperClient → Prop}
    (hrefl : ∀ s, R s s) {x : Zk α}
    (hx : Respects R x) (zkHost host : Bytes) :
    Respects (fun m m' => R (getZookeeperClient m host) (getZookeeperClient m' host))
      (onClient zkHost x) := by
  intro p a q h
  unfold onClient at h
  split at h
  · cases h
  · rename_i b s rest hrun
    cases h
    by_cases hhost : zkHost = host
    · subst hhost
      have hr := hx _ _ _ hrun
      simpa [getZookeeperClient] using hr
    · have hother : (p.1.insert zkHost s)[host]? = p.1[host]? := by
        rw [Std.ExtTreeMap.getElem?_insert, if_neg (by simpa using hhost)]
      simp only [getZookeeperClient, hother]
      exact hrefl _

end Ucorf.ZookeeperRegister
