import Ucorf.ClientCorrelation
import Ucorf.ClientReceive
import Ucorf.ReplyDelivery
import Ucorf.ServerReplies

/-!
# A call from end to end

The bytes of a two-way `Call` through the server's receive loop and dispatcher, and the
bytes of the reply through the client's loop to the return of that call. The transport
is perfect here, so what is left are the two things that the client itself gets wrong:
an empty response is taken for an unparsable one, and a header keeps 32 bits of an id.
-/
namespace Ucorf.Transparency

open Ucorf.Message
open Ucorf.Dispatcher
open Ucorf.Threads
open Ucorf.Server
open Ucorf.Client
open Ucorf.ClientSections
open Ucorf.ClientInvariant
open Ucorf.ClientNumbers
open Ucorf.ClientCorrelation
open Ucorf.ReplyDelivery

/-- The buffer that `Call` hands to `Send`. -/
def callBytes (args : CallArgs) (msgId : Nat) : Bytes :=
  let header := requestHeader UcorfHead args msgId
  (header.serialize header.byteSize).getD (List.replicate header.byteSize 0) ++ args.request

/-- The lengths of the request frame and of the frame that replies to it with `bytes`. -/
def Fits (args : CallArgs) (bytes : Bytes) : Prop :=
  14 + args.serviceName.length + args.methodName.length + args.request.length < 2 ^ 16 ∧
  14 + args.serviceName.length + args.methodName.length + bytes.length < 2 ^ 16

instance (args : CallArgs) (bytes : Bytes) : Decidable (Fits args bytes) :=
    inferInstanceAs (Decidable (_ ∧ _))

/-- The service answers the request with a message whose serialization is `bytes`. -/
def Responds (service : IService) (args : CallArgs) (bytes : Bytes) : Prop :=
  ∃ response, service.callMethod args.methodName args.request = some response ∧
    response.byteSize = bytes.length ∧ response.serialize response.byteSize = some bytes

section Wire

variable {args : CallArgs} {msgId : Nat} {bytes : Bytes} {s : ServerImpl} {service : IService}

theorem callBytes_eq (args : CallArgs) (msgId : Nat) :
    callBytes args msgId = (requestHeader UcorfHead args msgId).bytes ++ args.request := by
  rw [callBytes, UcorfHead.serialize_byteSize, Option.getD_some]

theorem requestHeader_type (hresp : args.response.isSome) :
    (requestHeader UcorfHead args msgId).getType = .request := by
  simp only [requestHeader, hresp, if_true]
  rfl

def replyHeader (args : CallArgs) (msgId : Nat) (bytes : Bytes) : UcorfHead :=
  ((requestHeader UcorfHead args msgId).setType .response).setFollowBytes bytes.length

/-- The frame that the call's bytes are. -/
def requestFrame (args : CallArgs) (msgId : Nat) (hs : s.services args.serviceName = some service)
    (hfits : args.request.length < 2 ^ 16) : ServerFraming.Frame s where
  head := requestHeader UcorfHead args msgId
  body := args.request
  announced := UInt32.toNat_ofNat_of_lt' (Nat.lt_of_lt_of_le hfits (by decide))
  registered := Option.isSome_of_eq_some hs

variable (msgId) in
/-- The server runs the method once, on the request, and sends what the service gave. -/
theorem server_runs (hresp : args.response.isSome) (hs : s.services args.serviceName = some service)
    (hr : Responds service args bytes) (hfits : Fits args bytes) :
    s.onReceiveData UcorfHead (callBytes args msgId) =
      ([⟨requestHeader UcorfHead args msgId, args.request,
        some ((replyHeader args msgId bytes).bytes ++ bytes)⟩],
        some (callBytes args msgId).length) := by
  have hreq : args.request.length < 2 ^ 16 := by
    have hlt := hfits.1
    omega
  have hencode : (requestFrame args msgId hs hreq).encode = callBytes args msgId := by
    rw [ServerFraming.encode_eq, callBytes_eq]
    rfl
  have hsize : (requestHeader UcorfHead args msgId).byteSize =
      14 + args.serviceName.length + args.methodName.length := rfl
  have hready : (requestFrame args msgId hs hreq).Ready
      (requestFrame args msgId hs hreq).encode.length := by
    have hlen : (callBytes args msgId).length =
        14 + args.serviceName.length + args.methodName.length + args.request.length := by
      rw [callBytes_eq, List.length_append, UcorfHead.bytes_length, hsize]
    have hhead : (requestFrame args msgId hs hreq).head.byteSize =
        14 + args.serviceName.length + args.methodName.length := rfl
    refine ⟨Nat.le_refl _, ?_⟩
    rw [hencode, hhead, hlen, Nat.mod_eq_of_lt hfits.1]
    omega
  obtain ⟨response, hcall, hlen, hbody⟩ := hr
  have hservice : s.services (requestHeader UcorfHead args msgId).service = some service := hs
  have hdispatch := ServerReplies.dispatchMsg_some hservice hcall
  have htwo : (requestHeader UcorfHead args msgId).getType ≠ .onewayRequest := by
    simp [requestHeader_type hresp]
  rw [if_neg htwo, hbody, hlen] at hdispatch
  have hitem : (requestFrame args msgId hs hreq).item =
      ⟨requestHeader UcorfHead args msgId, args.request,
        some ((replyHeader args msgId bytes).bytes ++ bytes)⟩ := by
    have hsent := congrArg Prod.snd hdispatch
    exact congrArg (Dispatch.mk (requestHeader UcorfHead args msgId) args.request) hsent
  have hframe := ServerFraming.onReceiveData_frame (requestFrame args msgId hs hreq) hready
  rwa [hencode, hitem] at hframe

variable (msgId) in
/-- The client hands `OnResponse` the reply, with the id that the header kept. -/
theorem client_receives (hfits : Fits args bytes) :
    ClientReceive.onReceiveData UcorfHead ((replyHeader args msgId bytes).bytes ++ bytes) =
      ([⟨replyHeader args msgId bytes, bytes⟩],
        ((replyHeader args msgId bytes).bytes ++ bytes).length) :=
  ClientReceive.onReceiveData_frame hfits.2
    (UInt32.toNat_ofNat_of_lt' (by have hlt := hfits.2; show _ < 2 ^ 32; omega))

theorem getId_replyHeader : IHeader.getId (replyHeader args msgId bytes) = msgId % 2 ^ 32 :=
  getId_requestHeader .ucorf args msgId

end Wire

section Call

variable {D T : Type} [DecidableEq T] [IDispatcher D T]

/-- Fed with the bytes of the call, the server runs its method once on its request, and
fed with the bytes of the reply, the client lets the call return with `bytes`. -/
def Transparent (cfg : Config) (server : ServerImpl) (s : State D T) (i : Nat) (args : CallArgs)
    (pc : CallPc T)
    (r : Reg T) (bytes : Bytes) : Prop :=
  ∃ x reply y, server.onReceiveData UcorfHead (callBytes args r.msgId) =
    ([x], some (callBytes args r.msgId).length) ∧
    x.header.getService = args.serviceName ∧ x.header.getMethod = args.methodName ∧
    x.data = args.request ∧
    x.sent = some reply ∧ ClientReceive.onReceiveData UcorfHead reply = ([y], reply.length) ∧
    FeedReturns cfg s i args pc r (y.frame r.tp) bytes

variable {cfg : Config} {d : D} {acts : List (Action (Thread T) Label)} {s : State D T}
    {i : Nat} {args : CallArgs}
variable {pc : CallPc T} {r : Reg T}

omit [DecidableEq T] [IDispatcher D T] in
theorem unerased_of_awaits (hi : s.threads[i]? = some (.call args pc)) (hpc : AwaitsReply pc r) :
    Unerased s i r := by
  obtain rfl | rfl := hpc
  · exact ⟨args, _, hi, rfl⟩
  · exact ⟨args, _, hi, rfl⟩

theorem transparent_iff_key (h : run (program cfg D T).step (start d) acts = some s)
    (hi : s.threads[i]? = some (.call args pc)) (hpc : AwaitsReply pc r) (hc : Connected s.shared r)
    {j : Nat} (hresp : args.response = some j) {server : ServerImpl} {service : IService}
    (hs : server.services args.serviceName = some service) {bytes : Bytes}
    (hr : Responds service args bytes)
    (hparse : cfg.parse j bytes ≠ 0) (hfits : Fits args bytes) :
    Transparent cfg server s i args pc r bytes ↔ bytes ≠ [] ∧ r.msgId < 2 ^ 32 ∧
    ¬ Reused acts s i r := by
  have hsome : args.response.isSome := Option.isSome_of_eq_some hresp
  have hserver := server_runs r.msgId hsome hs hr hfits
  have hclient := client_receives r.msgId hfits
  have hget : args.response.getD 0 = j := by rw [hresp, Option.getD_some]
  have hown := own_iff h (unerased_of_awaits hi hpc)
  have hframe : (ClientReceive.Response.mk (replyHeader args r.msgId bytes) bytes).frame r.tp =
      ⟨r.tp, r.msgId % 2 ^ 32, bytes⟩ := by
    rw [ClientReceive.Response.frame, getId_replyHeader]
  have htp : (Frame.mk r.tp (r.msgId % 2 ^ 32) bytes).tp = r.tp := rfl
  have hfeed := feedReturns_iff h hi hpc hc htp
  have hkey : r.msgId % 2 ^ 32 = r.msgId ↔ r.msgId < 2 ^ 32 := by omega
  have hentry : Entry s.shared r.grp r.msgId r.chan ↔ ¬ Reused acts s i r := hown
  rw [hkey, hget, hentry] at hfeed
  constructor
  · rintro ⟨x, reply, y, hx, -, -, -, hsent, hy, hreturns⟩
    rw [hserver] at hx
    cases hx
    cases hsent
    rw [hclient] at hy
    cases hy
    rw [hframe] at hreturns
    obtain ⟨hlt, hreused, hne, -⟩ := hfeed.mp hreturns
    exact ⟨hne, hlt, hreused⟩
  · rintro ⟨hne, hlt, hreused⟩
    refine ⟨_, _, _, hserver, rfl, rfl, rfl, rfl, hclient, ?_⟩
    rw [hframe]
    exact hfeed.mpr ⟨hlt, hreused, hne, hparse⟩

/-- Whatever the client has done before and whatever else it is doing, a call is
transparent exactly when its response is not empty, its number fits into the header and
its key has not been used again. -/
theorem transparent_iff (cfg : Config) (d : D) (acts : List (Action (Thread T) Label))
    (s : State D T)
    (h : run (program cfg D T).step (start d) acts = some s) (n i : Nat) (args : CallArgs)
    (pc : CallPc T) (r : Reg T)
    (hi : s.threads[i]? = some (.call args pc)) (hpc : AwaitsReply pc r) (hn : NthDraw acts n i)
    (hc : Connected s.shared r) (j : Nat) (hresp : args.response = some j) (server : ServerImpl)
    (service : IService)
    (hs : server.services args.serviceName = some service) (bytes : Bytes)
    (hr : Responds service args bytes)
    (hparse : cfg.parse j bytes ≠ 0) (hfits : Fits args bytes) :
    (Transparent cfg server s i args pc r bytes ↔ bytes ≠ [] ∧
      n % 2 ^ 64 < 2 ^ 32 ∧ ¬ Reused acts s i r) ∧
      ((draws acts).length ≤ 2 ^ 64 → ¬ Reused acts s i r) := by
  have hreg := (unerased_of_awaits hi hpc).registered
  have hnumber : r.msgId = n % 2 ^ 64 := by
    have hdraw := msgId_of_draw h hreg.hasGroup hn.2
    rwa [Nat.sub_add_cancel hn.1] at hdraw
  rw [← hnumber]
  exact ⟨transparent_iff_key h hi hpc hc hresp hs hr hparse hfits,
    fun hlen => not_reused h hlen hreg⟩

end Call

section Samples

/-- A client whose messages parse from any bytes, as a message with only optional fields may. -/
def lenientConfig : Config := ⟨⟨10, 100⟩, 1, Nat.one_pos, fun _ _ => 1⟩

/-- A server that answers every request with `bytes`. -/
def constServer (bytes : Bytes) : ServerImpl :=
  ⟨fun _ => some ⟨[], fun _ _ => some ⟨bytes.length, fun _ => some bytes⟩⟩⟩

/-- The second thread of `waitingRun` waits for its answer. -/
theorem run_waiting : ∃ s : State (RobinDispatcher Nat) Nat,
    run (program lenientConfig (RobinDispatcher Nat) Nat).step (start .init) waitingRun = some s ∧
      s.threads[1]? = some (.call twoway (.waiting ⟨0, 1, 0, 0⟩)) ∧
    Connected s.shared ⟨0, 1, 0, 0⟩ := by
  obtain ⟨s, hs, hat⟩ :=
    run_exists (program lenientConfig (RobinDispatcher Nat) Nat).step (start .init) waitingRun
    (fun s => s.threads[1]? = some (.call twoway (.waiting ⟨0, 1, 0, 0⟩)) ∧
      s.shared.channels 0 = some 0 ∧
      s.shared.chans[0]? = some ⟨none, []⟩) (by decide +kernel)
  obtain ⟨hcall, hchannel, hchan⟩ := of_decide_eq_true hat
  exact ⟨s, hs, hcall, hchannel, _, hchan, rfl⟩

theorem transparent_first : ∃ s : State (RobinDispatcher Nat) Nat,
    run (program lenientConfig (RobinDispatcher Nat) Nat).step (start .init) waitingRun = some s ∧
      Transparent lenientConfig (constServer [5]) s 1 twoway (.waiting ⟨0, 1, 0, 0⟩)
        ⟨0, 1, 0, 0⟩ [5] := by
  obtain ⟨s, hs, hcall, hc⟩ := run_waiting
  have hiff :=
    transparent_iff lenientConfig RobinDispatcher.init waitingRun s hs 1
      1 twoway _ ⟨0, 1, 0, 0⟩ hcall
    (.inr rfl) ⟨by decide, rfl⟩ hc 0 rfl (constServer [5]) _ rfl [5] ⟨⟨1, fun _ => some [5]⟩,
      rfl, rfl, rfl⟩ (by decide)
    (by decide)
  exact ⟨s, hs, hiff.1.mpr ⟨by decide, by decide, hiff.2 (by decide)⟩⟩

/-- The answer with no bytes, which is how a message with only default fields is sent. -/
theorem empty_not_transparent :
    ¬ ∀ (acts : List (Action (Thread Nat) Label)) (s : State (RobinDispatcher Nat) Nat)
      (i : Nat) args pc r j server
      service bytes, run (program lenientConfig (RobinDispatcher Nat) Nat).step
        (start .init) acts = some s →
      s.threads[i]? = some (.call args pc) → AwaitsReply pc r → Connected s.shared r →
    args.response = some j →
      server.services args.serviceName = some service → Responds service args bytes →
      lenientConfig.parse j bytes ≠ 0 → Fits args bytes →
    Transparent lenientConfig server s i args pc r bytes := by
  intro hall
  obtain ⟨s, hs, hcall, hc⟩ := run_waiting
  have htransparent :=
    hall waitingRun s 1 twoway _ _ 0 (constServer []) _ [] hs hcall (.inr rfl) hc rfl rfl
    ⟨⟨0, fun _ => some []⟩, rfl, rfl, rfl⟩ (by decide) (by decide)
  have hserver : (constServer []).services twoway.serviceName =
      some ⟨[], fun _ _ => some ⟨0, fun _ => some []⟩⟩ := rfl
  have hiff := transparent_iff_key hs hcall (.inr rfl) hc (j := 0) rfl hserver
    ⟨⟨0, fun _ => some []⟩, rfl, rfl, rfl⟩ (by decide) (by decide)
  exact (hiff.mp htransparent).1 rfl

end Samples

end Ucorf.Transparency
