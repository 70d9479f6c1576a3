import Ucorf.ClientReceive

/-!
# Cutting a stream of responses

`Hprose_Head` is eight bytes long and its `Parse` asks for nothing else, so the client
takes a frame as soon as its last byte is there, wherever the network cuts the stream.
-/
namespace Ucorf.ClientFraming

open Ucorf.Message
open Ucorf.Framing
open Ucorf.ClientReceive

/-- A serialized header with any call id, and the body that it announces. -/
structure Frame where
  head : HproseHead
  body : Bytes
  announced : head.getFollowBytes = body.length

def Frame.encode (f : Frame) : Bytes := (f.head.serialize f.head.byteSize).getD [] ++ f.body

def Frame.item (f : Frame) : Response HproseHead := ⟨f.head, f.body⟩

theorem encode_eq (f : Frame) : f.encode = f.head.bytes ++ f.body := rfl

theorem encode_length (f : Frame) : f.encode.length = 8 + f.body.length := by
  rw [encode_eq, List.length_append, HproseHead.bytes_length]

/-- The loop over a buffer that begins with bytes of a frame takes that frame once all
of it is there. -/
theorem next_frame {f : Frame} {b t u : Bytes} (hb : b ++ t = f.encode ++ u) :
    next HproseHead b = if f.encode.length ≤ b.length
      then .take f.item f.encode.length else .wait := by
  rw [encode_eq, List.append_assoc] at hb
  have hlen := encode_length f
  by_cases hshort : b.length < 8
  · have hparse : IHeader.parse (IHeader.factory : HproseHead) b = (0, HproseHead.factory) :=
      if_pos hshort
    have hwait : ¬ f.encode.length ≤ b.length := by omega
    rw [if_neg hwait]
    simp only [next, hparse, if_true]
  · have hone : (HproseHead.factory.parse b).1 = 8 := by
      simp only [HproseHead.parse, if_neg hshort]
    have hhead := HproseHead.parse_bytes HproseHead.factory hb (by omega)
    have hparse : IHeader.parse (IHeader.factory : HproseHead) b = (8, f.head) :=
      Prod.ext hone hhead
    have hfollow : IHeader.getFollowBytes f.head = f.body.length := f.announced
    simp only [next, hparse, hfollow, hlen]
    by_cases hfits : 8 + f.body.length ≤ b.length
    · have hbody : slice b 8 f.body.length = f.body := by
        have hmid := slice_middle f.head.bytes f.body u
        rwa [← hb, HproseHead.bytes_length, slice_append _ t hfits] at hmid
      rw [if_neg (by decide), if_neg (Nat.not_lt.mpr hfits), if_pos hfits, hbody]
      rfl
    · rw [if_neg (by decide), if_pos (Nat.lt_of_not_le hfits), if_neg hfits]

theorem codec : Codec (decoder HproseHead) Frame.encode Frame.item fun f n =>
    f.encode.length ≤ n where
  full := id
  empty := rfl
  sound := by
    intro f b t u m hb hn
    have hnext : next HproseHead b = .take f.item m := hn
    rw [next_frame hb] at hnext
    split at hnext
    · rename_i hle
      exact ⟨hle, (Outcome.take.inj hnext).2.symm⟩
    · cases hnext
  complete := by
    intro f b t u n hb _
    have hnext := next_frame hb
    constructor
    · intro hle
      rwa [if_pos hle] at hnext
    · intro hle
      rwa [if_neg hle] at hnext

/-- However the stream is cut and wherever it stops, `OnResponse` has been given the
frames that have arrived, in order and each once, and the bytes after them are kept. -/
theorem receives_arrived (frames : List Frame) (chunks : List Bytes) (later : Bytes)
    (hcut : chunks.flatten ++ later = frames.flatMap Frame.encode) :
    receiveAll HproseHead [] chunks =
      ((arrived (fun f => f.encode.length) frames chunks.flatten.length).map Frame.item,
        chunks.flatten.drop (total (fun f => f.encode.length)
          (arrived (fun f => f.encode.length) frames chunks.flatten.length))) ∧
    (later = [] → receiveAll HproseHead [] chunks = (frames.map Frame.item, [])) := by
  have hzero : arrived (fun f : Frame => f.encode.length) frames ([] : Bytes).length = [] := by
    cases frames with
    | nil => rfl
    | cons f fs =>
      have hpos : ¬ f.encode.length ≤ 0 := by
        rw [encode_length]
        omega
      exact if_neg hpos
  have hfeed := feed_arrived codec [] chunks (t := later) (by simpa [stream] using hcut) hzero
  rw [← receiveAll_eq_feed, List.nil_append] at hfeed
  obtain ⟨hcalls, hrest⟩ := Prod.mk.inj hfeed
  have hkept := Option.some.inj hrest
  have hall : receiveAll HproseHead [] chunks = (_, _) := Prod.ext hcalls hkept
  refine ⟨hall, ?_⟩
  rintro rfl
  have hstream : chunks.flatten = stream Frame.encode frames := by simpa [stream] using hcut
  have hlength := length_stream Frame.encode frames
  rw [hall, hstream, hlength, arrived_total, ← hlength, List.drop_length]

/-- A response of two bytes, cut inside its header and inside its body. -/
def shortFrame : Frame := ⟨⟨7, 2⟩, [1, 2], rfl⟩

theorem receives_short :
    receiveAll HproseHead [] [[0, 0, 0], [2, 0, 0, 0, 7, 1], [2]] = ([⟨⟨7, 2⟩, [1, 2]⟩], []) :=
  (receives_arrived [shortFrame] _ [] (by decide)).2 rfl

end Ucorf.ClientFraming
