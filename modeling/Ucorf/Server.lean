import Ucorf.Framing
import Ucorf.Message

/-!
# The server's receive loop

`onReceiveData` walks the received bytes with the source's own `consume`
counter; `dispatchMsg` looks the service up and answers in place. The loop is a
decoder of the framing library run until it waits, so that a transport that
keeps the unconsumed tail is a `feed` of that decoder.
-/
namespace Ucorf.Server

open Ucorf.Message
open Ucorf.Framing

structure IService where
  name : Bytes
  callMethod : Bytes → Bytes → Option IMessage

structure ServerImpl where
  services : Bytes → Option IService

/-- `std::map::insert` keeps the service that is already there. -/
def ServerImpl.registerService (s : ServerImpl) (service : IService) : Bool × ServerImpl :=
  match s.services service.name with
  | some _ => (false, s)
  | none => (true, ⟨fun n => if n = service.name then some service else s.services n⟩)

def ServerImpl.removeService (s : ServerImpl) (name : Bytes) : ServerImpl :=
  ⟨fun n => if n = name then none else s.services n⟩

/-- One call of `dispatchMsg` and the reply it handed to the transport. -/
structure Dispatch (H : Type) where
  header : H
  data : Bytes
  sent : Option Bytes

section Loop

variable {H : Type} [IHeader H]

/-- The result and the bytes handed to `Send`. The header is written into a
zeroed buffer and its own result is not looked at. -/
def ServerImpl.dispatchMsg (s : ServerImpl) (header : H) (data : Bytes) : Bool × Option Bytes :=
  match s.services (IHeader.getService header) with
  | none => (false, none)
  | some service =>
    match service.callMethod (IHeader.getMethod header) data with
    | none => (true, none)
    | some response =>
      if IHeader.getType header ≠ .onewayRequest then
        let header := IHeader.setFollowBytes (IHeader.setType header .response) response.byteSize
        let head := (IHeader.serialize header (IHeader.byteSize header)).getD
          (List.replicate (IHeader.byteSize header) 0)
        match response.serialize response.byteSize with
        | none => (true, none)
        | some body => (true, some (head ++ body))
      else (true, none)

/-- Only an unknown service is refused. -/
theorem ServerImpl.dispatchMsg_fst (s : ServerImpl) (header : H) (data : Bytes) :
    (s.dispatchMsg header data).1 = (s.services (IHeader.getService header)).isSome := by
  unfold ServerImpl.dispatchMsg
  cases s.services (IHeader.getService header) with
  | none => rfl
  | some service =>
    dsimp only
    split
    · rfl
    · split
      · split <;> rfl
      · rfl

/-- The loop at `consume` consumed bytes; `none` stands for the returned -1. -/
def ServerImpl.receiveLoop (H : Type) [IHeader H] (s : ServerImpl) (data : Bytes) (consume : Nat) :
    List (Dispatch H) × Option Nat :=
  if consume < data.length then
    let buf := data.drop consume
    let len := data.length - consume
    let parsed := IHeader.parse (IHeader.factory : H) buf
    let headLen := parsed.1
    let header := parsed.2
    if headLen = 0 then ([], some consume)
    else
      let followBytes := IHeader.getFollowBytes header
      if headLen + followBytes > len then ([], some consume)
      else
        let body := slice buf headLen followBytes
        let r := s.dispatchMsg header body
        if r.1 then
          let rest := s.receiveLoop H data (consume + (headLen + followBytes))
          (⟨header, body, r.2⟩ :: rest.1, rest.2)
        else ([⟨header, body, r.2⟩], none)
  else ([], some consume)
termination_by data.length - consume
decreasing_by
  have hl : (IHeader.parse (IHeader.factory : H) (data.drop consume)).1 ≠ 0 := ‹¬headLen = 0›
  omega

def ServerImpl.onReceiveData (H : Type) [IHeader H] (s : ServerImpl) (data : Bytes) :
    List (Dispatch H) × Option Nat :=
  s.receiveLoop H data 0

/-- What a transport does with the count: the unconsumed tail of one call, then
the next chunk, make the data of the next call; -1 ends the session. -/
def ServerImpl.receiveAll (H : Type) [IHeader H] (s : ServerImpl) :
    Bytes → List Bytes → List (Dispatch H) × Option Bytes
  | tail, [] => ([], some tail)
  | tail, chunk :: chunks =>
    let data := tail ++ chunk
    match s.onReceiveData H data with
    | (calls, none) => (calls, none)
    | (calls, some consume) =>
      let r := s.receiveAll H (data.drop consume) chunks
      (calls ++ r.1, r.2)

/-- One iteration of the loop over the bytes from `consume` on. -/
def ServerImpl.next (H : Type) [IHeader H] (s : ServerImpl) (buf : Bytes) : Outcome (Dispatch H) :=
  let parsed := IHeader.parse (IHeader.factory : H) buf
  if parsed.1 = 0 then .wait
  else if parsed.1 + IHeader.getFollowBytes parsed.2 > buf.length then .wait
  else
    let body := slice buf parsed.1 (IHeader.getFollowBytes parsed.2)
    let r := s.dispatchMsg parsed.2 body
    if r.1 then .take ⟨parsed.2, body, r.2⟩ (parsed.1 + IHeader.getFollowBytes parsed.2)
    else .fail ⟨parsed.2, body, r.2⟩

def ServerImpl.decoder (H : Type) [IHeader H] (s : ServerImpl) : Decoder UInt8 (Dispatch H) where
  next := s.next H
  bounded := by
    intro b x n h
    simp only [ServerImpl.next] at h
    split at h
    · cases h
    · split at h
      · cases h
      · split at h
        · cases h
          omega
        · cases h

/-- An iteration of the source loop does what the decoder says. -/
theorem receiveLoop_step (s : ServerImpl) (data : Bytes) (consume : Nat)
    (hle : consume ≤ data.length) :
    s.receiveLoop H data consume =
      match s.next H (data.drop consume) with
      | .wait => ([], some consume)
      | .fail x => ([x], none)
      | .take x n => (x :: (s.receiveLoop H data (consume + n)).1,
          (s.receiveLoop H data (consume + n)).2) := by
  rw [ServerImpl.receiveLoop]
  simp only [ServerImpl.next, List.length_drop]
  generalize IHeader.parse (IHeader.factory : H) (data.drop consume) = parsed
  by_cases h₀ : parsed.1 = 0
  · simp [h₀]
  · by_cases h₁ : parsed.1 + IHeader.getFollowBytes parsed.2 > data.length - consume
    · simp only [if_neg h₀, if_pos h₁, ite_self]
    · have hc : consume < data.length := by omega
      simp only [if_pos hc, if_neg h₀, if_neg h₁]
      split <;> simp_all

/-- From any consumed count the source loop drains the decoder. -/
theorem receiveLoop_eq_drain (s : ServerImpl) (data : Bytes) (consume : Nat)
    (hle : consume ≤ data.length) :
    s.receiveLoop H data consume =
      (((s.decoder H).drain (data.drop consume)).1,
        ((s.decoder H).drain (data.drop consume)).2.map fun rest => data.length - rest.length) :=
  loop_eq_drain (D := s.decoder H) _
    (fun c hc hn => by rw [receiveLoop_step s data c hc, show s.next H _ = _ from hn])
    (fun c hc x hn => by rw [receiveLoop_step s data c hc, show s.next H _ = _ from hn])
    (fun c hc x n hn => by rw [receiveLoop_step s data c hc, show s.next H _ = _ from hn])
      consume hle

/-- A session of the server is a feed of its decoder. -/
theorem receiveAll_eq_feed (s : ServerImpl) (tail : Bytes) (chunks : List Bytes) :
    s.receiveAll H tail chunks = (s.decoder H).feed tail chunks := by
  induction chunks generalizing tail with
  | nil => rfl
  | cons chunk chunks ih =>
    rw [ServerImpl.receiveAll, Decoder.feed, ServerImpl.onReceiveData,
      receiveLoop_eq_drain s (tail ++ chunk) 0 (Nat.zero_le _), List.drop_zero]
    cases hd : (s.decoder H).drain (tail ++ chunk) with
    | mk xs o =>
      cases o with
      | none => rfl
      | some rest => simp only [Option.map_some, drain_suffix hd, ih]

theorem next_sent {s : ServerImpl} {b : Bytes} {x : Dispatch H}
    (h : (∃ n, s.next H b = .take x n) ∨ s.next H b = .fail x) :
    x.sent = (s.dispatchMsg x.header x.data).2 := by
  simp only [ServerImpl.next] at h
  split at h
  · simp at h
  · split at h
    · simp at h
    · split at h
      · obtain ⟨-, rfl, -⟩ := by simpa using h
        rfl
      · obtain rfl := by simpa using h
        rfl

/-- The reply of a logged call is the one that `dispatchMsg` computed. -/
theorem sent_eq (s : ServerImpl) (tail : Bytes) (chunks : List Bytes) :
    ∀ c ∈ (s.receiveAll H tail chunks).1, c.sent = (s.dispatchMsg c.header c.data).2 := by
  rw [receiveAll_eq_feed]
  apply feed_forall
  · intro b x n h
    exact next_sent (.inl ⟨n, h⟩)
  · intro b x h
    exact next_sent (.inr h)

end Loop

end Ucorf.Server
