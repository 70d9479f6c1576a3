import Ucorf.Client
import Ucorf.Framing

/-!
# The client's receive loop

`ClientImpl::OnReceiveData` is the loop of the server with `OnResponse` in the place of
`DispatchMsg`, and nothing that `OnResponse` does ends it. Each call of `OnResponse` is
a thread of the client's own model, which starts from what the call is given.
-/
namespace Ucorf.ClientReceive

open Ucorf.Message
open Ucorf.Framing
open Ucorf.Client

/-- What one call of `OnResponse` is given. -/
structure Response (H : Type) where
  header : H
  data : Bytes
  deriving DecidableEq

/-- The frame that the thread of the call handles. -/
def Response.frame {H T : Type} [IHeader H] (x : Response H) (tp : T) : Frame T :=
  ⟨tp, IHeader.getId x.header, x.data⟩

section Loop

variable (H : Type) [IHeader H]

/-- The loop at `consume` consumed bytes. -/
def receiveLoop (data : Bytes) (consume : Nat) : List (Response H) × Nat :=
  if consume < data.length then
    let buf := data.drop consume
    let len := data.length - consume
    let parsed := IHeader.parse (IHeader.factory : H) buf
    let headLen := parsed.1
    let header := parsed.2
    if headLen = 0 then ([], consume)
    else
      let followBytes := IHeader.getFollowBytes header
      if headLen + followBytes > len then ([], consume)
      else
        let rest := receiveLoop data (consume + (headLen + followBytes))
        (⟨header, slice buf headLen followBytes⟩ :: rest.1, rest.2)
  else ([], consume)
termination_by data.length - consume
decreasing_by
  have hl : (IHeader.parse (IHeader.factory : H) (data.drop consume)).1 ≠ 0 := ‹¬headLen = 0›
  omega

def onReceiveData (data : Bytes) : List (Response H) × Nat := receiveLoop H data 0

/-- The transport gives the unconsumed tail of one call and the next chunk to the next. -/
def receiveAll : Bytes → List Bytes → List (Response H) × Bytes
  | tail, [] => ([], tail)
  | tail, chunk :: chunks =>
    let data := tail ++ chunk
    let r := onReceiveData H data
    let rest := receiveAll (data.drop r.2) chunks
    (r.1 ++ rest.1, rest.2)

/-- One iteration of the loop over the bytes from `consume` on. -/
def next (buf : Bytes) : Outcome (Response H) :=
  let parsed := IHeader.parse (IHeader.factory : H) buf
  if parsed.1 = 0 then .wait
  else if parsed.1 + IHeader.getFollowBytes parsed.2 > buf.length then .wait
  else .take ⟨parsed.2, slice buf parsed.1 (IHeader.getFollowBytes parsed.2)⟩
    (parsed.1 + IHeader.getFollowBytes parsed.2)

def decoder : Decoder UInt8 (Response H) where
  next := next H
  bounded := by
    intro b x n h
    simp only [next] at h
    split at h
    · cases h
    · split at h
      · cases h
      · cases h
        omega

variable {H}

theorem next_not_fail {b : Bytes} {x : Response H} : next H b ≠ .fail x := by
  simp only [next]
  split
  · simp
  · split <;> simp

theorem receiveLoop_step (data : Bytes) (consume : Nat) (hle : consume ≤ data.length) :
    receiveLoop H data consume =
      match next H (data.drop consume) with
      | .wait => ([], consume)
      | .fail _ => ([], consume)
      | .take x n => (x :: (receiveLoop H data (consume + n)).1,
          (receiveLoop H data (consume + n)).2) := by
  rw [receiveLoop]
  simp only [next, List.length_drop]
  generalize IHeader.parse (IHeader.factory : H) (data.drop consume) = parsed
  by_cases h₀ : parsed.1 = 0
  · simp [h₀]
  · by_cases h₁ : parsed.1 + IHeader.getFollowBytes parsed.2 > data.length - consume
    · simp only [if_neg h₀, if_pos h₁, ite_self]
    · have hc : consume < data.length := by omega
      simp only [if_pos hc, if_neg h₀, if_neg h₁]

/-- The client's loop never fails, so its count is always there. -/
theorem receiveLoop_eq_drain (data : Bytes) (consume : Nat) (hle : consume ≤ data.length) :
    ((receiveLoop H data consume).1, some (receiveLoop H data consume).2) =
      (((decoder H).drain (data.drop consume)).1,
        ((decoder H).drain (data.drop consume)).2.map fun rest => data.length - rest.length) := by
  refine loop_eq_drain (D := decoder H)
    (fun c => ((receiveLoop H data c).1, some (receiveLoop H data c).2))
    ?_ ?_ ?_ consume hle
  · intro c hc hn
    have hnext : next H (data.drop c) = .wait := hn
    simp only [receiveLoop_step data c hc, hnext]
  · intro c _ x hn
    exact absurd hn next_not_fail
  · intro c hc x n hn
    have hnext : next H (data.drop c) = .take x n := hn
    rw [receiveLoop_step data c hc]
    simp only [hnext]

theorem receiveAll_eq_feed (tail : Bytes) (chunks : List Bytes) :
    ((receiveAll H tail chunks).1, some (receiveAll H tail chunks).2) =
      (decoder H).feed tail chunks := by
  induction chunks generalizing tail with
  | nil => rfl
  | cons chunk chunks ih =>
    have hloop := receiveLoop_eq_drain (H := H) (tail ++ chunk) 0 (Nat.zero_le _)
    rw [List.drop_zero] at hloop
    cases hd : (decoder H).drain (tail ++ chunk) with
    | mk xs o =>
      rw [hd] at hloop
      obtain ⟨hxs, ho⟩ := Prod.mk.inj hloop
      cases o with
      | none => cases ho
      | some rest =>
        have hcount : (tail ++ chunk).drop (onReceiveData H (tail ++ chunk)).2 = rest := by
          rw [onReceiveData, Option.some.inj ho]
          exact drain_suffix hd
        rw [Decoder.feed_cons hd, ← ih, receiveAll]
        simp only [hcount]
        rw [onReceiveData, hxs]

end Loop

/-- A frame that comes alone and fits the cast of its length is handed out and consumed. -/
theorem onReceiveData_frame {h : UcorfHead} {body : Bytes}
    (hsize : h.byteSize + body.length < 2 ^ 16)
    (hfollow : h.getFollowBytes = body.length) :
    onReceiveData UcorfHead (h.bytes ++ body) = ([⟨h, body⟩], (h.bytes ++ body).length) := by
  have hlen : (h.bytes ++ body).length = h.byteSize + body.length := by
    rw [List.length_append, UcorfHead.bytes_length]
  have hlens : h.byteSize = 14 + h.service.length + h.method.length := rfl
  have hparse := UcorfHead.parse_bytes UcorfHead.factory
    (show (h.bytes ++ body) ++ [] = h.bytes ++ body from List.append_nil _) (by omega) (by omega)
  rw [hlen, Nat.mod_eq_of_lt hsize, if_neg (by omega)] at hparse
  have hhead : IHeader.parse (IHeader.factory : UcorfHead)
      (h.bytes ++ body) = (h.byteSize, h) := hparse
  have hne : h.byteSize ≠ 0 := by omega
  have hfollow' : IHeader.getFollowBytes h = body.length := hfollow
  have hbody : slice (h.bytes ++ body) h.byteSize body.length = body := by
    have hmid := slice_middle h.bytes body []
    rwa [List.append_nil, UcorfHead.bytes_length] at hmid
  have hnext : next UcorfHead (h.bytes ++ body) = .take ⟨h, body⟩ (h.byteSize + body.length) := by
    simp only [next, hhead, if_neg hne, hfollow', hlen, gt_iff_lt, Nat.lt_irrefl, if_false, hbody]
  have hrest : receiveLoop UcorfHead (h.bytes ++ body) (h.byteSize + body.length) =
      ([], h.byteSize + body.length) := by
    rw [receiveLoop, if_neg (by omega)]
  rw [onReceiveData, receiveLoop_step _ 0 (Nat.zero_le _), List.drop_zero, hnext, hlen]
  simp only [Nat.zero_add, hrest]

end Ucorf.ClientReceive
