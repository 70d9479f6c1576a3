import Ucorf.Server

/-!
# Cutting a stream of requests

A client sends serialized headers, each followed by the body it announces, and
the network cuts the bytes anywhere. `UcorfHead.parse` compares the length of
the whole buffer after a cast to sixteen bits, so a frame may be complete and
still not be taken. The schedule condition of the framing library says exactly
for which cuts every frame is dispatched.
-/
namespace Ucorf.ServerFraming

open Ucorf.Message
open Ucorf.Framing
open Ucorf.Server

/-- A serialized header of a registered service, and the body that it announces. -/
structure Frame (s : ServerImpl) where
  head : UcorfHead
  body : Bytes
  announced : head.getFollowBytes = body.length
  registered : (s.services head.service).isSome

def Frame.encode {s : ServerImpl} (f : Frame s) : Bytes :=
  (f.head.serialize f.head.byteSize).getD [] ++ f.body

/-- All of the frame is among the `n` bytes received since its first byte, and
`n` modulo 65536 is not below the size of its header. -/
def Frame.Ready {s : ServerImpl} (f : Frame s) (n : Nat) : Prop :=
  f.encode.length ≤ n ∧ f.head.byteSize ≤ n % 2 ^ 16

def Frame.item {s : ServerImpl} (f : Frame s) : Dispatch UcorfHead :=
  ⟨f.head, f.body, (s.dispatchMsg f.head f.body).2⟩

/-- The calls of `dispatchMsg` are the frames, in order and each once, and no
byte is left over. -/
def DispatchesExactly (s : ServerImpl) (frames : List (Frame s)) (chunks : List Bytes) : Prop :=
  ((s.receiveAll UcorfHead [] chunks).1.map fun c => (c.header, c.data)) =
    (frames.map fun f => (f.head, f.body)) ∧
  (s.receiveAll UcorfHead [] chunks).2 = some []

variable {s : ServerImpl}

theorem encode_eq (f : Frame s) : f.encode = f.head.bytes ++ f.body := by
  rw [Frame.encode, UcorfHead.serialize_byteSize, Option.getD_some]

theorem encode_length (f : Frame s) : f.encode.length = f.head.byteSize + f.body.length := by
  rw [encode_eq, List.length_append, UcorfHead.bytes_length]

/-- A registered service always lets the loop go on. -/
theorem dispatchMsg_registered (f : Frame s) : (s.dispatchMsg f.head f.body).1 = true := by
  rw [ServerImpl.dispatchMsg_fst]
  exact f.registered

theorem next_sound {f : Frame s} {b : Bytes} {m : Nat} (hn : s.next UcorfHead b = .take f.item m) :
    f.Ready b.length ∧ m = f.encode.length := by
  simp only [ServerImpl.next] at hn
  split at hn
  · cases hn
  · rename_i h₀
    split at hn
    · cases hn
    · rename_i h₁
      split at hn
      · obtain ⟨hitem, hm⟩ := Outcome.take.inj hn
        obtain ⟨hhead, -, -⟩ := Dispatch.mk.inj hitem
        have hne : (UcorfHead.factory.parse b).1 ≠ 0 := h₀
        obtain ⟨hsize, hmod⟩ := UcorfHead.parse_sound hne
        have hlen : (UcorfHead.factory.parse b).2 = f.head := hhead
        have hfirst : (IHeader.parse (IHeader.factory : UcorfHead) b).1 = f.head.byteSize := by
          rw [← hlen]; exact hsize
        have hfollow : IHeader.getFollowBytes (IHeader.parse (IHeader.factory : UcorfHead) b).2 =
            f.body.length := by
          rw [← f.announced, ← hlen]; rfl
        rw [hfirst, hfollow] at hm h₁
        rw [hlen] at hmod
        refine ⟨⟨?_, hmod⟩, ?_⟩
        · rw [encode_length]; omega
        · rw [encode_length, hm]
      · cases hn

/-- Once some number of bytes makes a frame ready its header fits the wire, and
the loop takes it at the next number of bytes that does and waits at the others. -/
theorem next_complete {f : Frame s} {b t u : Bytes} {n : Nat} (hb : b ++ t = f.encode ++ u)
    (hr : f.Ready n) :
    (f.Ready b.length → s.next UcorfHead b = .take f.item f.encode.length) ∧
      (¬ f.Ready b.length → s.next UcorfHead b = .wait) := by
  have hsize : f.head.byteSize < 2 ^ 16 := by
    have := Nat.mod_lt n (show 0 < 2 ^ 16 by decide)
    have := hr.2
    omega
  have hlens : f.head.byteSize = 14 + f.head.service.length + f.head.method.length := rfl
  rw [encode_eq, List.append_assoc] at hb
  have hparse : IHeader.parse (IHeader.factory : UcorfHead) b =
      if b.length % 2 ^ 16 < f.head.byteSize then (0, UcorfHead.factory)
        else (f.head.byteSize, f.head) :=
    UcorfHead.parse_bytes UcorfHead.factory hb (by omega) (by omega)
  have hfollow : IHeader.getFollowBytes f.head = f.body.length := f.announced
  have hlen := encode_length f
  by_cases hmod : b.length % 2 ^ 16 < f.head.byteSize
  · rw [if_pos hmod] at hparse
    have hwait : s.next UcorfHead b = .wait := by simp only [ServerImpl.next, hparse, if_true]
    refine ⟨?_, fun _ => hwait⟩
    intro h
    exact absurd h.2 (by omega)
  · rw [if_neg hmod] at hparse
    have hne : f.head.byteSize ≠ 0 := by omega
    refine ⟨?_, ?_⟩
    · intro h
      have hfits : ¬ f.head.byteSize + f.body.length > b.length := by have := h.1; omega
      have hbody : slice b f.head.byteSize f.body.length = f.body := by
        have hmid := slice_middle f.head.bytes f.body u
        rwa [← hb, UcorfHead.bytes_length, slice_append _ t (by omega)] at hmid
      simp only [ServerImpl.next, hparse, if_neg hne, hfollow, if_neg hfits, hbody,
        dispatchMsg_registered, if_true, hlen]
      rfl
    · intro h
      have hshort : f.head.byteSize + f.body.length > b.length := by
        by_contra hle
        exact h ⟨by omega, by omega⟩
      simp only [ServerImpl.next, hparse, if_neg hne, hfollow, if_pos hshort]

theorem codec (s : ServerImpl) :
    Codec (s.decoder UcorfHead) Frame.encode (Frame.item (s := s)) Frame.Ready where
  full := fun h => h.1
  empty := rfl
  sound := fun _ hn => next_sound hn
  complete := fun hb hr => next_complete hb hr

/-- A frame that comes alone is dispatched and consumed when its header fits the cast of
its own length. -/
theorem onReceiveData_frame (f : Frame s) (hr : f.Ready f.encode.length) :
    s.onReceiveData UcorfHead f.encode = ([f.item], some f.encode.length) := by
  have htake : (s.decoder UcorfHead).next f.encode = .take f.item f.encode.length :=
    (next_complete (t := []) (u := []) rfl hr).1 hr
  have hempty : (s.decoder UcorfHead).next [] = .wait := rfl
  rw [ServerImpl.onReceiveData, receiveLoop_eq_drain s f.encode 0 (Nat.zero_le _), List.drop_zero,
    Decoder.drain_take htake, List.drop_length, Decoder.drain_wait hempty]
  rfl

theorem dispatchesExactly_iff_feed (frames : List (Frame s)) (chunks : List Bytes) :
    DispatchesExactly s frames chunks ↔
      (s.decoder UcorfHead).feed [] chunks = (frames.map Frame.item, some []) := by
  rw [← receiveAll_eq_feed, Prod.ext_iff, DispatchesExactly]
  refine and_congr_left fun _ => ⟨?_, ?_⟩
  · intro h
    have hmk :=
      congrArg (List.map fun p : UcorfHead × Bytes => (⟨p.1, p.2, (s.dispatchMsg p.1 p.2).2⟩ :
      Dispatch UcorfHead)) h
    rw [List.map_map, List.map_map] at hmk
    refine Eq.trans ?_ hmk
    conv_lhs => rw [← List.map_id (s.receiveAll UcorfHead [] chunks).1]
    apply List.map_congr_left
    intro c hc
    have hsent := sent_eq s [] chunks c hc
    cases c
    simp_all
  · intro h
    rw [h, List.map_map]
    rfl

/-- The server takes the frames of a cut stream exactly once and in order, and
keeps nothing, if and only if the frames can be grouped, one group for each
chunk, so that every frame is ready when the chunk of its group arrives. -/
theorem dispatches_iff_timely (frames : List (Frame s)) (chunks : List Bytes)
    (hcut : chunks.flatten = frames.flatMap Frame.encode) :
    DispatchesExactly s frames chunks ↔
      ∃ groups : List (List (Frame s)), groups.flatten = frames ∧
        Timely (fun f => f.encode.length) Frame.Ready groups (chunks.map List.length) 0 := by
  rw [dispatchesExactly_iff_feed]
  exact feed_iff (codec s) hcut

def echoServer : ServerImpl :=
  ⟨fun _ => some ⟨[], fun _ data => some ⟨data.length, fun _ => some data⟩⟩⟩

def shortFrame : Frame echoServer where
  head := ⟨0, 7, 2, [115], [109]⟩
  body := [1, 2]
  announced := rfl
  registered := rfl

/-- A request cut inside its header and again inside its body. -/
theorem dispatches_short :
    DispatchesExactly echoServer [shortFrame]
      [[0xf8, 0, 0, 0], [0, 7, 0, 0, 0, 2, 0, 1, 0, 1, 115, 109, 1], [2]] := by
  refine (dispatches_iff_timely [shortFrame] _ (by decide)).mpr ⟨[[], [], [shortFrame]], rfl, ?_⟩
  simp [Timely, Drains, Frame.Ready, encode_length, UcorfHead.byteSize, shortFrame]

/-- While the buffer length is below the fixed part modulo 65536 nothing is taken. -/
theorem next_stalled {b : Bytes} (hb : b.length % 2 ^ 16 < 14) : s.next UcorfHead b = .wait := by
  have hzero : (UcorfHead.factory.parse b).1 = 0 := by
    by_contra hne
    obtain ⟨-, hle⟩ := UcorfHead.parse_sound hne
    simp only [UcorfHead.byteSize] at hle
    omega
  have hparse : (IHeader.parse (IHeader.factory : UcorfHead) b).1 = 0 := hzero
  simp only [ServerImpl.next, hparse, if_true]

def stalledFrame : Frame echoServer where
  head := ⟨0, 1, 65527, [], []⟩
  body := List.replicate 65527 0
  announced := by rw [List.length_replicate]; rfl
  registered := rfl

/-- A frame of 65541 bytes in one chunk is complete and never dispatched. -/
theorem stalled_not_dispatched :
    [stalledFrame.encode].flatten = [stalledFrame].flatMap Frame.encode ∧
    ¬ DispatchesExactly echoServer [stalledFrame] [stalledFrame.encode] := by
  refine ⟨by simp, ?_⟩
  have hhead : stalledFrame.head.byteSize = 14 := rfl
  have hbody : stalledFrame.body.length = 65527 := List.length_replicate
  have hlen : stalledFrame.encode.length = 65541 := by rw [encode_length, hhead, hbody]
  intro h
  rw [dispatchesExactly_iff_feed, Decoder.feed, List.nil_append,
    Decoder.drain_wait (D := echoServer.decoder UcorfHead)
      (next_stalled (by rw [hlen]; decide))] at h
  simp [Decoder.feed] at h

end Ucorf.ServerFraming
