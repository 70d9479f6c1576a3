import Ucorf.Dispatcher
import Ucorf.Threads

/-!
# The client

`ClientImpl` as threads over its data members: calls, the connect and disconnect
handlers, and one thread for each received frame. A section is what runs under
one mutex or on one atomic counter, and its label names it in a schedule and
carries what the outside answers there. Groups and channels are shared objects,
so they live in two heaps and are named by their position. Mutexes are held
within one section only.
-/
namespace Ucorf.Client

open Ucorf.Message
open Ucorf.Dispatcher
open Ucorf.Threads

structure Options where
  requestWndSize : Nat
  rcvTimeoutMs : Int
  deriving DecidableEq, Repr

/-- `header` names the frame whose header object it is. -/
structure ResponseData where
  ec : BoostEc
  header : Option Nat
  data : Bytes
  deriving DecidableEq, Repr

def ResponseData.ofEc (ec : BoostEc) : ResponseData := ⟨ec, none, []⟩

/-- A `co_chan<ResponseData>(1)`; `tried` keeps every value of a `TryPush`, newest
first, whether it found room or not. -/
structure RspChan where
  queue : Option ResponseData
  tried : List ResponseData
  deriving DecidableEq, Repr

namespace RspChan

def empty : RspChan := ⟨none, []⟩

def tryPush (c : RspChan) (rsp : ResponseData) : RspChan := ⟨c.queue.or (some rsp), rsp :: c.tried⟩

def pop (c : RspChan) : RspChan := { c with queue := none }

end RspChan

abbrev RspChanMap := Std.ExtTreeMap Nat Nat

/-- The channels of a map, in the order in which a loop over the map meets them. -/
def RspChanMap.chans (m : RspChanMap) : List Nat := m.toList.map Prod.snd

theorem RspChanMap.mem_chans {m : RspChanMap} {id ch : Nat} (h : m[id]? = some ch) :
    ch ∈ RspChanMap.chans m :=
  List.mem_map.mpr ⟨(id, ch), Std.ExtTreeMap.mem_toList_iff_getElem?_eq_some.mpr h, rfl⟩

/-- `tp` is the transport that the group was made for. -/
structure RspChanGroup (T : Type) where
  tp : T
  maps : Fin 16 → RspChanMap
  closed : Fin 16 → Bool

def slot (msgId : Nat) : Fin 16 := ⟨msgId % 16, Nat.mod_lt _ (by decide)⟩

namespace RspChanGroup

variable {T : Type}

def init (tp : T) : RspChanGroup T := ⟨tp, fun _ => ∅, fun _ => false⟩

def setMap (g : RspChanGroup T) (i : Fin 16) (m : RspChanMap) : RspChanGroup T :=
  { g with maps := fun j => if j = i then m else g.maps j }

def close (g : RspChanGroup T) (i : Fin 16) : RspChanGroup T :=
  { g with closed := fun j => if j = i then true else g.closed j }

end RspChanGroup

structure ClientImpl (D T : Type) where
  dispatcher : D
  channels : T → Option Nat
  msgId : Nat
  wndSize : Nat
  groups : List (RspChanGroup T)
  chans : List RspChan

namespace ClientImpl

variable {D T : Type}

def init (d : D) : ClientImpl D T := ⟨d, fun _ => none, 0, 0, [], []⟩

def setChannel [DecidableEq T] (s : ClientImpl D T) (tp : T) (g : Option Nat) : ClientImpl D T :=
  { s with channels := fun u => if u = tp then g else s.channels u }

def setGroup (s : ClientImpl D T) (g : Nat) (grp : RspChanGroup T) : ClientImpl D T :=
  { s with groups := s.groups.set g grp }

def tryPush (s : ClientImpl D T) (rsp : ResponseData) (ch : Nat) : ClientImpl D T :=
  { s with chans := s.chans.modify ch fun c => c.tryPush rsp }

end ClientImpl

/-- Without a `response` object the call is one-way. -/
structure CallArgs where
  serviceName : Bytes
  methodName : Bytes
  request : Bytes
  response : Option Nat
  deriving DecidableEq, Repr

/-- `finders` counts the default finder and the added ones: adding one is what
drops the default. `parse` is the `Parse` of the given response object. -/
structure Config where
  opt : Options
  finders : Nat
  findersPos : 0 < finders
  parse : Nat → Bytes → Nat

/-- What a two-way call knows once it holds its group. -/
structure Reg (T : Type) where
  tp : T
  msgId : Nat
  grp : Nat
  chan : Nat
  deriving DecidableEq, Repr

inductive Exit (T : Type) where
  | early : Exit T -- before the group was found, or a one-way call
  | refused : Reg T → Exit T -- the slot was closed
  | timedOut : Reg T → Exit T
  | answered : Reg T → ResponseData → Exit T
  deriving DecidableEq, Repr

/-- The point before the next section of `Call`. -/
inductive CallPc (T : Type) where
  | entered : CallPc T
  | dispatching : CallPc T
  | reconnecting : CallPc T
  | redispatching : CallPc T
  | picked : Option T → CallPc T
  | posted : CallPc T
  | numbered : T → Nat → CallPc T
  | grouped : Reg T → CallPc T
  | registered : Reg T → CallPc T
  | sent : Reg T → CallPc T
  | waiting : Reg T → CallPc T
  | popped : Reg T → ResponseData → CallPc T
  | shrunk : Reg T → ResponseData → CallPc T
  | returned : Exit T → BoostEc → CallPc T
  deriving DecidableEq, Repr

inductive ConnPc where
  | entered
  | added
  | done
  deriving DecidableEq, Repr

inductive DiscPc where
  | entered
  | deleted
  | closing : Nat → Fin 16 → DiscPc
  | done : Option Nat → DiscPc
  deriving DecidableEq, Repr

structure Frame (T : Type) where
  tp : T
  id : Nat
  data : Bytes
  deriving DecidableEq, Repr

inductive FramePc where
  | received
  | found : Nat → FramePc
  | delivering : Nat → FramePc
  | delivered : Nat → FramePc
  | discarded
  deriving DecidableEq, Repr

inductive Thread (T : Type) where
  | call : CallArgs → CallPc T → Thread T
  | conn : T → ConnPc → Thread T
  | disc : T → BoostEc → DiscPc → Thread T
  | frame : Frame T → FramePc → Thread T
  deriving DecidableEq, Repr

inductive Label where
  | window
  | get
  | reconnect : List BoostEc → Label
  | number : Bool → Label -- whether there is a transport and it is established
  | findGroup
  | register
  | send
  | sendResult : BoostEc → Label -- the callback given to `Send` runs
  | grow
  | pop
  | timeout
  | shrink
  | erase
  | add
  | install
  | del
  | remove
  | close
  | lookup
  | search
  | push
  deriving DecidableEq, Repr

namespace CallPc

variable {T : Type}

/-- The id of a two-way call that has taken one and not returned before it found a group. -/
def number : CallPc T → Option Nat
  | .numbered _ id => some id
  | .grouped r => some r.msgId
  | .registered r => some r.msgId
  | .sent r => some r.msgId
  | .waiting r => some r.msgId
  | .popped r _ => some r.msgId
  | .shrunk r _ => some r.msgId
  | .returned (.refused r) _ => some r.msgId
  | .returned (.timedOut r) _ => some r.msgId
  | .returned (.answered r _) _ => some r.msgId
  | _ => none

/-- A call that obtained a group. -/
def group : CallPc T → Option (Reg T)
  | .grouped r => some r
  | .registered r => some r
  | .sent r => some r
  | .waiting r => some r
  | .popped r _ => some r
  | .shrunk r _ => some r
  | .returned (.refused r) _ => some r
  | .returned (.timedOut r) _ => some r
  | .returned (.answered r _) _ => some r
  | _ => none

/-- A call that registered its channel, whether or not it has returned since. -/
def registration : CallPc T → Option (Reg T)
  | .registered r => some r
  | .sent r => some r
  | .waiting r => some r
  | .popped r _ => some r
  | .shrunk r _ => some r
  | .returned (.timedOut r) _ => some r
  | .returned (.answered r _) _ => some r
  | _ => none

/-- A call between the registration of its channel and its return. -/
def live : CallPc T → Option (Reg T)
  | .registered r => some r
  | .sent r => some r
  | .waiting r => some r
  | .popped r _ => some r
  | .shrunk r _ => some r
  | _ => none

/-- A call that handed its request to `Send`. -/
def sentReg : CallPc T → Option (Reg T)
  | .registered _ => none
  | pc => pc.registration

/-- A call that took a value from its channel. -/
def answer : CallPc T → Option (Reg T × ResponseData)
  | .popped r rsp => some (r, rsp)
  | .shrunk r rsp => some (r, rsp)
  | .returned (.answered r rsp) _ => some (r, rsp)
  | _ => none

def isReturned : CallPc T → Bool
  | .returned _ _ => true
  | _ => false

/-- A call past `++msg_id_` or returned. -/
def drawn : CallPc T → Bool
  | .entered => false
  | .dispatching => false
  | .reconnecting => false
  | .redispatching => false
  | .picked _ => false
  | _ => true

/-- A call that had its turn under the slot's mutex, or returned before. -/
def decided (pc : CallPc T) : Bool := pc.isReturned || pc.registration.isSome

/-- A registered call that has not erased its key, now or when it returned. -/
def unerased : CallPc T → Option (Reg T)
  | .returned (.timedOut r) _ => some r
  | pc => pc.live

variable {pc : CallPc T} {r : Reg T}

theorem number_of_group (h : pc.group = some r) : pc.number = some r.msgId := by
  unfold CallPc.group at h
  split at h <;> cases h <;> rfl

theorem group_of_registration (h : pc.registration = some r) : pc.group = some r := by
  unfold CallPc.registration at h
  split at h <;> cases h <;> rfl

theorem group_cases (h : pc.group = some r) :
    pc = .grouped r ∨ (∃ ec, pc = .returned (.refused r) ec) ∨ pc.registration = some r := by
  unfold CallPc.group at h
  split at h <;> cases h <;>
    first | exact .inl rfl | exact .inr (.inl ⟨_, rfl⟩) | exact .inr (.inr rfl)

theorem registration_of_live (h : pc.live = some r) : pc.registration = some r := by
  unfold CallPc.live at h
  split at h <;> cases h <;> rfl

theorem registration_of_sentReg (h : pc.sentReg = some r) : pc.registration = some r := by
  unfold CallPc.sentReg at h
  split at h
  · cases h
  · exact h

theorem registration_of_unerased (h : pc.unerased = some r) : pc.registration = some r := by
  unfold CallPc.unerased at h
  split at h
  · cases h
    rfl
  · exact registration_of_live h

theorem unerased_or_answer (h : pc.registration = some r) :
    pc.unerased = some r ∨ ∃ rsp, pc.answer = some (r, rsp) := by
  unfold CallPc.registration at h
  split at h <;> cases h <;> first | exact .inl rfl | exact .inr ⟨_, rfl⟩

theorem isReturned_of_live (h : pc.live = some r) : pc.isReturned = false := by
  unfold CallPc.live at h
  split at h <;> cases h <;> rfl

theorem registration_of_answer {rsp : ResponseData} (h : pc.answer = some (r, rsp)) :
    pc.registration = some r := by
  unfold CallPc.answer at h
  split at h <;> cases h <;> rfl

end CallPc

/-- The end of `Call`, on the popped response. -/
def callResult (parse : Bytes → Nat) (rsp : ResponseData) : BoostEc :=
  if rsp.ec.failed then rsp.ec
  else if rsp.data = [] ∨ parse rsp.data = 0 then makeUcorfErrorCode .ecParseError
  else BoostEc.ok

section Sections

variable {D T : Type} [DecidableEq T] [IDispatcher D T]

/-- `ClientImpl::Call`. A one-way call waits in `posted` for the result of its send. -/
def callNext (cfg : Config) (args : CallArgs) (s : ClientImpl D T) :
    CallPc T → Label → Option (ClientImpl D T × CallPc T)
  | .entered, .window =>
    if s.wndSize > cfg.opt.requestWndSize then
      some (s, .returned .early (makeUcorfErrorCode .ecReqWndFull))
    else some (s, .dispatching)
  | .dispatching, .get =>
    match IDispatcher.get s.dispatcher args.serviceName args.methodName args.request with
    | (some tp, d) => some ({ s with dispatcher := d }, .picked (some tp))
    | (none, d) => some ({ s with dispatcher := d }, .reconnecting)
  | .reconnecting, .reconnect ecs =>
    if ecs.length ≠ cfg.finders then none
    else if ecs.all BoostEc.failed then some (s, .returned .early (ecs.getLastD BoostEc.ok))
    else some (s, .redispatching)
  | .redispatching, .get =>
    match IDispatcher.get s.dispatcher args.serviceName args.methodName args.request with
    | (tp, d) => some ({ s with dispatcher := d }, .picked tp)
  | .picked (some tp), .number true =>
    let id := (s.msgId + 1) % 2 ^ 64
    some ({ s with msgId := id }, if args.response.isSome then .numbered tp id else .posted)
  | .picked _, .number false => some (s, .returned .early (makeUcorfErrorCode .ecNoEstab))
  | .posted, .sendResult ec => some (s, .returned .early ec)
  | .numbered tp id, .findGroup =>
    match s.channels tp with
    | none => some (s, .returned .early (makeUcorfErrorCode .ecNoEstab))
    | some g => some ({ s with chans := s.chans ++ [.empty] }, .grouped ⟨tp, id, g, s.chans.length⟩)
  | .grouped r, .register =>
    match s.groups[r.grp]? with
    | none => none
    | some grp =>
      if grp.closed (slot r.msgId) then
        some (s, .returned (.refused r) (makeUcorfErrorCode .ecNoEstab))
      else
        let map := (grp.maps (slot r.msgId)).insert r.msgId r.chan
        some (s.setGroup r.grp (grp.setMap (slot r.msgId) map), .registered r)
  | .registered r, .send => some (s, .sent r)
  | .sent r, .grow => some ({ s with wndSize := (s.wndSize + 1) % 2 ^ 64 }, .waiting r)
  | .waiting r, .pop =>
    match s.chans[r.chan]? with
    | none => none
    | some c =>
      match c.queue with
      | none => none
      | some rsp => some ({ s with chans := s.chans.set r.chan c.pop }, .popped r rsp)
  | .waiting r, .timeout =>
    match s.chans[r.chan]? with
    | none => none
    | some c =>
      if cfg.opt.rcvTimeoutMs ≠ 0 ∧ c.queue = none then
        some (s, .returned (.timedOut r) (makeUcorfErrorCode .ecRcvTimeout))
      else none
  | .popped r rsp, .shrink =>
      some ({ s with wndSize := (s.wndSize + (2 ^ 64 - 1)) % 2 ^ 64 }, .shrunk r rsp)
  | .shrunk r rsp, .erase =>
    match s.groups[r.grp]? with
    | none => none
    | some grp =>
      let map := (grp.maps (slot r.msgId)).erase r.msgId
      some (s.setGroup r.grp (grp.setMap (slot r.msgId) map),
        .returned (.answered r rsp) (callResult (cfg.parse (args.response.getD 0)) rsp))
  | pc, .sendResult ec =>
    -- the callback of a two-way call holds the channel and may run at any time
    match pc.sentReg with
    | none => none
    | some r => some (if ec.failed then s.tryPush (.ofEc ec) r.chan else s, pc)
  | _, _ => none

/-- `ClientImpl::OnConnected`. -/
def connNext (tp : T) (s : ClientImpl D T) : ConnPc → Label → Option (ClientImpl D T × ConnPc)
  | .entered, .add => some ({ s with dispatcher := IDispatcher.add s.dispatcher tp }, .added)
  | .added, .install =>
    some ({ s.setChannel tp (some s.groups.length) with groups := s.groups ++ [.init tp] }, .done)
  | _, _ => none

/-- `ClientImpl::OnDisconnected`. -/
def discNext (tp : T) (ec : BoostEc) (s : ClientImpl D T) :
    DiscPc → Label → Option (ClientImpl D T × DiscPc)
  | .entered, .del => some ({ s with dispatcher := IDispatcher.del s.dispatcher tp }, .deleted)
  | .deleted, .remove =>
    match s.channels tp with
    | none => some (s, .done none)
    | some g => some (s.setChannel tp none, .closing g 0)
  | .closing g i, .close =>
    match s.groups[g]? with
    | none => none
    | some grp =>
      let s := s.setGroup g (grp.close i)
      some ((RspChanMap.chans (grp.maps i)).foldl (fun s ch => s.tryPush (.ofEc ec) ch) s,
        if h : i.val + 1 < 16 then .closing g ⟨i.val + 1, h⟩ else .done (some g))
  | _, _ => none

/-- `ClientImpl::OnResponse`. -/
def frameNext (self : Nat) (f : Frame T) (s : ClientImpl D T) :
    FramePc → Label → Option (ClientImpl D T × FramePc)
  | .received, .lookup =>
    match s.channels f.tp with
    | none => some (s, .discarded)
    | some g => some (s, .found g)
  | .found g, .search =>
    match s.groups[g]? with
    | none => none
    | some grp =>
      match (grp.maps (slot f.id))[f.id]? with
      | none => some (s, .discarded)
      | some ch => some (s, .delivering ch)
  | .delivering ch, .push => some (s.tryPush ⟨.ok, some self, f.data⟩ ch, .delivered ch)
  | _, _ => none

def threadNext (cfg : Config) (s : ClientImpl D T) (self : Nat) :
    Thread T → Label → Option (ClientImpl D T × Thread T × List (Thread T))
  | .call args pc, a => (callNext cfg args s pc a).map fun r => (r.1, .call args r.2, [])
  | .conn tp pc, a => (connNext tp s pc a).map fun r => (r.1, .conn tp r.2, [])
  | .disc tp ec pc, a => (discNext tp ec s pc a).map fun r => (r.1, .disc tp ec r.2, [])
  | .frame f pc, a => (frameNext self f s pc a).map fun r => (r.1, .frame f r.2, [])

def isStart : Thread T → Bool
  | .call _ .entered => true
  | .conn _ .entered => true
  | .disc _ _ .entered => true
  | .frame _ .received => true
  | _ => false

def program (cfg : Config) (D T : Type) [DecidableEq T] [IDispatcher D T] :
    Program (ClientImpl D T) (Thread T) Label where
  start := isStart
  next := threadNext cfg

/-- A client with no transport yet and no thread. -/
def start (d : D) : System (ClientImpl D T) (Thread T) := ⟨.init d, []⟩

end Sections

section Samples

/-- A client that waits 100 ms for a response and whose messages parse unless empty. -/
def sampleConfig : Config := ⟨⟨10, 100⟩, 1, by decide, fun _ data => data.length⟩

def twoway : CallArgs := ⟨[], [], [], some 0⟩

def connectRun : List (Action (Thread Nat) Label) :=
  [.spawn (.conn 0 .entered), .run 0 .add, .run 0 .install]

/-- Thread `i` is a call up to its wait for the response. -/
def callRun (i : Nat) : List (Action (Thread Nat) Label) :=
  [.spawn (.call twoway .entered), .run i .window, .run i .get,
    .run i (.number true), .run i .findGroup, .run i .register, .run i .send, .run i .grow]

/-- Transport 0 is connected and a call waits for its response. -/
def waitingRun : List (Action (Thread Nat) Label) := connectRun ++ callRun 1

/-- The call of `waitingRun` gets its response and returns. -/
def answeredRun : List (Action (Thread Nat) Label) :=
  waitingRun ++ [.spawn (.frame ⟨0, 1, [5]⟩ .received), .run 2 .lookup,
    .run 2 .search, .run 2 .push, .run 1 .pop, .run 1 .shrink, .run 1 .erase]

end Samples

end Ucorf.Client
