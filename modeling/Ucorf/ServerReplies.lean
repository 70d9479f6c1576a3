import Ucorf.ServerFraming

/-!
# Replies

What the server owes the caller of a dispatched frame, and which answers of a service
let it pay: `dispatchMsg` goes on without a word when `CallMethod` gives no message or
the message does not serialize, and `Pb_Service::CallMethod` gives none on each of its
three error paths.
-/
namespace Ucorf.ServerReplies

open Ucorf.Message
open Ucorf.Server

/-- What the code uses of a protobuf message; nothing is assumed about it. -/
structure Protobuf (M : Type) where
  parseFromArray : M → Bytes → Option M
  byteSize : M → Nat
  serializeToArray : M → Nat → Option Bytes

def Protobuf.message {M : Type} (pb : Protobuf M) (msg : M) : IMessage :=
  ⟨pb.byteSize msg, pb.serializeToArray msg⟩

/-- The two prototypes are the new messages that they make. -/
structure MethodDescriptor (M : Type) where
  index : Nat
  requestPrototype : M
  responsePrototype : M

/-- `call` is the handler of the user, which fills the response or returns false. -/
structure PbService (M : Type) where
  name : Bytes
  findMethodByName : Bytes → Option (MethodDescriptor M)
  call : Nat → M → M → Option M

section Service

variable {M : Type} (pb : Protobuf M) (service : PbService M)

def PbService.callMethod (method requestData : Bytes) : Option IMessage :=
  match service.findMethodByName method with
  | none => none
  | some methodDescriptor =>
    match pb.parseFromArray methodDescriptor.requestPrototype requestData with
    | none => none
    | some request =>
      match service.call methodDescriptor.index request methodDescriptor.responsePrototype with
      | none => none
      | some response => some (pb.message response)

def PbService.toIService : IService := ⟨service.name, service.callMethod pb⟩

/-- The method is there, the request parses and the handler returns true. -/
theorem callMethod_eq_some (method requestData : Bytes) (msg : IMessage) :
    service.callMethod pb method requestData = some msg ↔
      ∃ descriptor request response, service.findMethodByName method = some descriptor ∧
        pb.parseFromArray descriptor.requestPrototype requestData = some request ∧
        service.call descriptor.index request descriptor.responsePrototype = some response ∧
        pb.message response = msg := by
  unfold PbService.callMethod
  cases hfind : service.findMethodByName method with
  | none => simp
  | some descriptor =>
    cases hparse : pb.parseFromArray descriptor.requestPrototype requestData with
    | none => simp [hparse]
    | some request =>
      cases hcall : service.call descriptor.index request descriptor.responsePrototype <;>
        simp [hparse, hcall]

end Service

/-- What is owed for a frame dispatched to `service`. -/
structure Answered (service : IService) (x : Dispatch UcorfHead) : Prop where
  request : x.header.getType = .request →
    ∃ reply body, x.sent = some (UcorfHead.bytes reply ++ body) ∧
    reply.getType = .response ∧ reply.getId = x.header.getId ∧
    ∀ response, service.callMethod x.header.method x.data = some response →
      reply.getFollowBytes = response.byteSize ∧ response.serialize response.byteSize = some body
  oneway : x.header.getType = .onewayRequest → x.sent = none

/-- The service answers with a message that can be sent. -/
def Sendable (service : IService) (x : Dispatch UcorfHead) : Prop :=
  ∃ response, service.callMethod x.header.method x.data = some response ∧
    (response.serialize response.byteSize).isSome ∧ response.byteSize < 2 ^ 32

section Reply

variable {s : ServerImpl} {service : IService} {header : UcorfHead} {data : Bytes}

theorem dispatchMsg_none (hs : s.services header.service = some service)
    (hcall : service.callMethod header.method data = none) :
    s.dispatchMsg header data = (true, none) := by
  have hs' : s.services (IHeader.getService header) = some service := hs
  have hcall' : service.callMethod (IHeader.getMethod header) data = none := hcall
  simp only [ServerImpl.dispatchMsg, hs', hcall']

theorem dispatchMsg_some {response : IMessage} (hs : s.services header.service = some service)
    (hcall : service.callMethod header.method data = some response) :
    s.dispatchMsg header data = (true,
      if header.getType = .onewayRequest then none
      else (response.serialize response.byteSize).map
        (((header.setType .response).setFollowBytes response.byteSize).bytes ++ ·)) := by
  have hs' : s.services (IHeader.getService header) = some service := hs
  have hcall' : service.callMethod (IHeader.getMethod header) data = some response := hcall
  have htype : IHeader.getType header = header.getType := rfl
  have hhead : ∀ h : UcorfHead, (IHeader.serialize h (IHeader.byteSize h)).getD
      (List.replicate (IHeader.byteSize h) 0) = h.bytes := by
    intro h
    have hbytes : IHeader.serialize h (IHeader.byteSize h) = some h.bytes := h.serialize_byteSize
    rw [hbytes, Option.getD_some]
  simp only [ServerImpl.dispatchMsg, hs', hcall', hhead, htype]
  by_cases honeway : header.getType = .onewayRequest
  · simp [honeway]
  · rw [if_pos honeway, if_neg honeway]
    cases response.serialize response.byteSize <;> rfl

/-- The reply is owed exactly when the request was a two-way one, and paid exactly when
the service's message can be sent. -/
theorem answered_iff_sendable {x : Dispatch UcorfHead}
    (hs : s.services x.header.service = some service)
    (hsent : x.sent = (s.dispatchMsg x.header x.data).2) :
    Answered service x ↔ (x.header.getType = .request → Sendable service x) := by
  cases hcall : service.callMethod x.header.method x.data with
  | none =>
    rw [dispatchMsg_none hs hcall] at hsent
    constructor
    · intro h hreq
      obtain ⟨reply, body, hreply, -⟩ := h.request hreq
      rw [hsent] at hreply
      cases hreply
    · intro h
      refine ⟨?_, fun _ => hsent⟩
      intro hreq
      obtain ⟨response, hresponse, -⟩ := h hreq
      rw [hcall] at hresponse
      cases hresponse
  | some response =>
    rw [dispatchMsg_some hs hcall] at hsent
    constructor
    · intro h hreq
      obtain ⟨reply, body, hreply, -, -, hall⟩ := h.request hreq
      obtain ⟨hsize, hbody⟩ := hall response hcall
      refine ⟨response, hcall, Option.isSome_of_eq_some hbody, ?_⟩
      rw [← hsize]
      exact reply.bodyLength.toNat_lt
    · intro h
      refine ⟨?_, ?_⟩
      · intro hreq
        obtain ⟨response', hcall', hbody, hsize⟩ := h hreq
        obtain rfl : response = response' := Option.some.inj (hcall.symm.trans hcall')
        obtain ⟨body, hbody⟩ := Option.isSome_iff_exists.mp hbody
        have htwo : x.header.getType ≠ .onewayRequest := by simp [hreq]
        rw [if_neg htwo, hbody] at hsent
        refine ⟨(x.header.setType .response).setFollowBytes response.byteSize,
          body, hsent, rfl, rfl, ?_⟩
        intro response'' hcall''
        obtain rfl : response = response'' := Option.some.inj (hcall.symm.trans hcall'')
        exact ⟨UInt32.toNat_ofNat_of_lt' hsize, hbody⟩
      · intro honeway
        rw [hsent, if_pos honeway]

end Reply

/-- Every frame that is dispatched to a registered service, in every buffer. -/
theorem answered_iff (s : ServerImpl) (data : Bytes) (x : Dispatch UcorfHead)
    (hx : x ∈ (s.onReceiveData UcorfHead data).1) (service : IService)
    (hs : s.services x.header.service = some service) :
    (Answered service x ↔ (x.header.getType = .request → Sendable service x)) ∧
    ∀ (M : Type) (pb : Protobuf M) (pbService : PbService M), service = pbService.toIService pb →
      (Answered service x ↔ (x.header.getType = .request →
        ∃ descriptor request response,
          pbService.findMethodByName x.header.method = some descriptor ∧
          pb.parseFromArray descriptor.requestPrototype x.data = some request ∧
          pbService.call descriptor.index request descriptor.responsePrototype = some response ∧
          (pb.serializeToArray response (pb.byteSize response)).isSome ∧
    pb.byteSize response < 2 ^ 32)) := by
  have hall : x ∈ (s.receiveAll UcorfHead [] [data]).1 := by
    rw [ServerImpl.receiveAll, List.nil_append]
    split
    · rename_i heq
      rwa [heq] at hx
    · rename_i heq
      rw [heq] at hx
      exact List.mem_append_left _ hx
  have hiff := answered_iff_sendable hs (sent_eq s [] [data] x hall)
  refine ⟨hiff, ?_⟩
  rintro M pb pbService rfl
  rw [hiff]
  apply imp_congr_right
  intro _
  constructor
  · rintro ⟨msg, hcall, hbody, hsize⟩
    obtain ⟨descriptor, request, response, hfind, hparse, hreturn, rfl⟩ :=
      (callMethod_eq_some pb pbService _ _ msg).mp hcall
    exact ⟨descriptor, request, response, hfind, hparse, hreturn, hbody, hsize⟩
  · rintro ⟨descriptor, request, response, hfind, hparse, hreturn, hbody, hsize⟩
    have hcall := (callMethod_eq_some pb pbService x.header.method x.data (pb.message response)).mpr
      ⟨descriptor, request, response, hfind, hparse, hreturn, rfl⟩
    exact ⟨pb.message response, hcall, hbody, hsize⟩

/-- Messages of one kind, which carry nothing. -/
def emptyMessages : Protobuf Unit :=
  ⟨fun _ data => if data = [] then some () else none, fun _ => 0, fun _ _ => some []⟩

/-- A service with one method `m`. -/
def oneMethod : PbService Unit :=
  ⟨[115], fun method => if method = [109] then some ⟨0, (), ()⟩ else none, fun _ _ _ => some ()⟩

def oneServer : ServerImpl :=
    ((⟨fun _ => none⟩ : ServerImpl).registerService (oneMethod.toIService emptyMessages)).2

/-- A two-way request without a body. -/
def requestFor (method : Bytes) : ServerFraming.Frame oneServer :=
  ⟨⟨0, 7, 0, [115], method⟩, [], rfl, rfl⟩

theorem requestFor_dispatched (method : Bytes) (hlen : method.length < 100) :
    (requestFor method).item ∈
      (oneServer.onReceiveData UcorfHead (requestFor method).encode).1 := by
  have hsize : (requestFor method).encode.length = 15 + method.length := by
    rw [ServerFraming.encode_length]
    simp [requestFor, UcorfHead.byteSize]
  have hready : (requestFor method).Ready (requestFor method).encode.length := by
    refine ⟨Nat.le_refl _, ?_⟩
    rw [hsize]
    simp only [requestFor, UcorfHead.byteSize, List.length_singleton]
    omega
  rw [ServerFraming.onReceiveData_frame _ hready]
  exact List.mem_singleton_self _

theorem answered_method : Answered (oneMethod.toIService emptyMessages) (requestFor [109]).item :=
  (answered_iff oneServer _ _ (requestFor_dispatched [109] (by decide)) _ rfl).1.mpr
    fun _ => ⟨⟨0, fun _ => some []⟩, rfl, rfl, by decide⟩

/-- A request for a method that the service does not have is never replied to. -/
theorem unknown_method_unanswered : ¬ ∀ (s : ServerImpl)
    (data : Bytes), ∀ x ∈ (s.onReceiveData UcorfHead data).1,
    ∀ service, s.services x.header.service = some service → Answered service x := by
  intro hall
  have hanswered := hall oneServer _ _ (requestFor_dispatched [110] (by decide))
    (oneMethod.toIService emptyMessages) rfl
  obtain ⟨reply, body, hreply, -⟩ := hanswered.request rfl
  have hsent : (requestFor [110]).item.sent = none := by
    have hdispatch : oneServer.dispatchMsg (requestFor [110]).head [] = (true, none) :=
      dispatchMsg_none rfl rfl
    exact congrArg Prod.snd hdispatch
  rw [hsent] at hreply
  cases hreply

end Ucorf.ServerReplies
