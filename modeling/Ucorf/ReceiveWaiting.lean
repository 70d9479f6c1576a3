import Ucorf.ClientReceive
import Ucorf.Server

/-!
# What a receive loop waits for

`Parse` returns 0 for a short buffer, for a wrong first byte and for a length that does
not pass its check, and both loops keep what is left in all three cases. So a loop waits
for something exactly when what it keeps is the beginning of a frame that is not there
yet, and of a frame that `Parse` can accept.
-/
namespace Ucorf.ReceiveWaiting

open Ucorf.BigEndian
open Ucorf.Message
open Ucorf.Framing
open Ucorf.Server

/-- A complete valid frame: its header with the magic byte, and the body that it announces. -/
structure WireFrame where
  head : UcorfHead
  body : Bytes
  service_lt : head.service.length < 2 ^ 16
  method_lt : head.method.length < 2 ^ 16
  announced : head.getFollowBytes = body.length

def WireFrame.bytes (f : WireFrame) : Bytes := f.head.bytes ++ f.body

section Property

variable {X : Type} (receive : Bytes → List X × Option Nat)

/-- The bytes are a proper prefix of a frame, and with some further bytes the next call hands out a
frame. -/
structure Completable (rest : Bytes) : Prop where
  begun : ∃ (f : WireFrame) (more : Bytes), more ≠ [] ∧ rest ++ more = f.bytes
  handedOut : ∃ more, (receive (rest ++ more)).1 ≠ []

/-- Where a call stops before the end without -1, it keeps the beginning of a frame. -/
def Waits (data : Bytes) : Prop :=
  ∀ consume, (receive data).2 = some consume → consume < data.length →
  Completable receive (data.drop consume)

end Property

section Condition

/-- The bytes with zeros for the part of a header that is missing. -/
def padded (rest : Bytes) : Bytes := rest ++ List.replicate 14 0

/-- The header size that the length fields give. -/
def impliedSize (rest : Bytes) : Nat :=
  14 + ofBE (slice (padded rest) 10 2) + ofBE (slice (padded rest) 12 2)

def impliedBody (rest : Bytes) : Nat := ofBE (slice (padded rest) 6 4)

/-- The beginning of a frame that `Parse` can accept once it is there. -/
structure Pending (rest : Bytes) : Prop where
  magic : rest.head? = some UcorfHead.magicCode
  size_lt : impliedSize rest < 2 ^ 16
  short : rest.length < impliedSize rest + impliedBody rest

/-- Frames whose header passes the check against the bytes that are left, and behind them
nothing, or a pending one, or a frame that is not accepted. -/
inductive Orderly (accepts : UcorfHead → Prop) : Bytes → Prop where
  | done : Orderly accepts []
  | pending {rest : Bytes} (h : Pending rest) : Orderly accepts rest
  | frame (f : WireFrame) {rest : Bytes} (h : accepts f.head)
      (hready : f.head.byteSize ≤ (f.bytes ++ rest).length % 2 ^ 16)
      (hrest : Orderly accepts rest) :
      Orderly accepts (f.bytes ++ rest)
  | refused (f : WireFrame) {rest : Bytes} (h : ¬ accepts f.head)
      (hready : f.head.byteSize ≤ (f.bytes ++ rest).length % 2 ^ 16) :
      Orderly accepts (f.bytes ++ rest)

end Condition

section Prefixes

variable {rest : Bytes}

theorem implied_of_long (h : 14 ≤ rest.length) :
    impliedSize rest = 14 + ofBE (slice rest 10 2) + ofBE (slice rest 12 2) ∧
    impliedBody rest = ofBE (slice rest 6 4) := by
  unfold impliedSize impliedBody padded
  rw [slice_append rest _ (by omega), slice_append rest _ (by omega),
    slice_append rest _ (by omega)]
  exact ⟨rfl, rfl⟩

/-- More zeros behind the bytes do not change what the fields give. -/
theorem implied_zeros (rest : Bytes) {n : Nat} (hn : 14 ≤ n) :
    impliedSize rest = 14 + ofBE (slice (rest ++ List.replicate n 0) 10 2) +
        ofBE (slice (rest ++ List.replicate n 0) 12 2) ∧
      impliedBody rest = ofBE (slice (rest ++ List.replicate n 0) 6 4) := by
  have hsplit : rest ++ List.replicate n 0 = padded rest ++ List.replicate (n - 14) 0 := by
    rw [padded, List.append_assoc, List.replicate_append_replicate]
    congr 2
    omega
  have hlen : 14 ≤ (padded rest).length := by
    rw [padded, List.length_append, List.length_replicate]
    omega
  rw [hsplit, slice_append _ _ (by omega), slice_append _ _ (by omega), slice_append _ _ (by omega)]
  exact ⟨rfl, rfl⟩

/-- A word whose missing bytes are zero is not above one that goes on. -/
theorem word_le {off n : Nat} (hn : off + n ≤ 14) {more : Bytes}
    (hlen : 14 ≤ (rest ++ more).length) :
    ofBE (slice (padded rest) off n) ≤ ofBE (slice (rest ++ more) off n) := by
  rw [List.length_append] at hlen
  rw [padded, slice_append_split, slice_append_split]
  have hzeros : slice (List.replicate 14 (0 : UInt8)) (off - rest.length)
      (n - (rest.length - off)) =
        List.replicate (n - (rest.length - off)) 0 := by
    rw [slice, List.drop_replicate, List.take_replicate]
    congr 1
    omega
  have hsame : (slice more (off - rest.length) (n - (rest.length - off))).length =
      n - (rest.length - off) := by
    rw [slice_length]
    omega
  rw [hzeros, ofBE_append, ofBE_append, ofBE_zeros, hsame, List.length_replicate]
  exact Nat.le_add_right _ _

end Prefixes

section Frames

variable {b : Bytes}

theorem bytes_length (f : WireFrame) : f.bytes.length = f.head.byteSize + f.body.length := by
  rw [WireFrame.bytes, List.length_append, UcorfHead.bytes_length]

/-- A frame at the front of the buffer parses once its header passes the check. -/
theorem parse_frame (f : WireFrame) {rest : Bytes}
    (hready : f.head.byteSize ≤ (f.bytes ++ rest).length % 2 ^ 16) :
    UcorfHead.factory.parse (f.bytes ++ rest) = (f.head.byteSize, f.head) := by
  have hb : (f.bytes ++ rest) ++ [] = f.head.bytes ++ (f.body ++ rest) := by simp [WireFrame.bytes]
  rw [UcorfHead.parse_bytes UcorfHead.factory hb f.service_lt f.method_lt,
    if_neg (Nat.not_lt.mpr hready)]

/-- What was parsed with its whole body behind it is a frame. -/
theorem frame_of_parse (hp : (UcorfHead.factory.parse b).1 ≠ 0)
    (hfits : (UcorfHead.factory.parse b).1 + (UcorfHead.factory.parse b).2.getFollowBytes ≤
      b.length) :
    ∃ (f : WireFrame) (rest : Bytes), b = f.bytes ++ rest ∧ f.head = (UcorfHead.factory.parse b).2 ∧
      f.bytes.length =
        (UcorfHead.factory.parse b).1 + (UcorfHead.factory.parse b).2.getFollowBytes ∧
      f.head.byteSize ≤ b.length % 2 ^ 16 := by
  have hbytes := UcorfHead.bytes_of_parse hp
  obtain ⟨hsize, hready⟩ := UcorfHead.parse_sound hp
  generalize UcorfHead.factory.parse b = p at hfits hbytes hsize hready
  obtain ⟨n, h⟩ := p
  dsimp only at hfits hbytes hsize hready ⊢
  have hlt : b.length % 2 ^ 16 < 2 ^ 16 := Nat.mod_lt _ (by decide)
  have hlens : h.byteSize = 14 + h.service.length + h.method.length := rfl
  have hbody : h.getFollowBytes = ((b.drop n).take h.getFollowBytes).length := by
    rw [List.length_take, List.length_drop]
    omega
  refine ⟨⟨h, (b.drop n).take h.getFollowBytes, by omega, by omega, hbody⟩,
    (b.drop n).drop h.getFollowBytes, ?_, rfl, ?_, hready⟩
  · rw [WireFrame.bytes, hbytes, List.append_assoc, List.take_append_drop, List.take_append_drop]
  · rw [bytes_length, ← hbody]
    exact congrArg (· + h.getFollowBytes) hsize.symm

/-- The first fourteen bytes of a frame give its sizes. -/
theorem implied_of_begun {rest more : Bytes} {f : WireFrame} (h : rest ++ more = f.bytes)
    (hlen : 14 ≤ rest.length) :
    impliedSize rest = f.head.byteSize ∧ impliedBody rest = f.body.length := by
  obtain ⟨hsize, hbody⟩ := implied_of_long hlen
  obtain ⟨r, rfl, -⟩ := UcorfHead.fixed_prefix h hlen
  have hs : slice (f.head.fixed ++ r) 10 2 = toBE 2 f.head.service.length := rfl
  have hm : slice (f.head.fixed ++ r) 12 2 = toBE 2 f.head.method.length := rfl
  have hl : slice (f.head.fixed ++ r) 6 4 = toBE 4 f.head.bodyLength.toNat := rfl
  rw [hs, hm, ofBE_toBE, ofBE_toBE] at hsize
  rw [hl, ofBE_toBE] at hbody
  rw [hsize, hbody, ← f.announced, Nat.mod_eq_of_lt (show _ < 256 ^ 2 from f.service_lt),
    Nat.mod_eq_of_lt (show _ < 256 ^ 2 from f.method_lt),
    Nat.mod_eq_of_lt (show _ < 256 ^ 4 from f.head.bodyLength.toNat_lt)]
  exact ⟨rfl, rfl⟩

end Frames

/-- A loop that waits where nothing parses or a body is not there, and otherwise hands the frame
out. -/
structure FrameLoop {X : Type} (D : Decoder UInt8 X) (accepts : UcorfHead → Prop) : Prop where
  wait : ∀ b, (UcorfHead.factory.parse b).1 = 0 ∨
    b.length < (UcorfHead.factory.parse b).1 + (UcorfHead.factory.parse b).2.getFollowBytes →
    D.next b = .wait
  take : ∀ b, (UcorfHead.factory.parse b).1 ≠ 0 →
    (UcorfHead.factory.parse b).1 + (UcorfHead.factory.parse b).2.getFollowBytes ≤ b.length →
    accepts (UcorfHead.factory.parse b).2 →
    ∃ x, D.next b = .take x
      ((UcorfHead.factory.parse b).1 + (UcorfHead.factory.parse b).2.getFollowBytes)
  refuse : ∀ b, (UcorfHead.factory.parse b).1 ≠ 0 →
    (UcorfHead.factory.parse b).1 + (UcorfHead.factory.parse b).2.getFollowBytes ≤ b.length →
    ¬ accepts (UcorfHead.factory.parse b).2 → ∃ x, D.next b = .fail x

/-- A call of the loop: the items that it hands out and the number of bytes consumed. -/
def received {X : Type} (D : Decoder UInt8 X) (data : Bytes) : List X × Option Nat :=
  ((D.drain data).1, (D.drain data).2.map fun rest => data.length - rest.length)

section Loops

variable {X : Type} {D : Decoder UInt8 X} {accepts : UcorfHead → Prop} {rest b : Bytes}

theorem waits_iff_kept : Waits (received D) b ↔ ∀ rest, (D.drain b).2 = some rest → rest ≠ [] →
    Completable (received D) rest := by
  have hsuffix : ∀ rest, (D.drain b).2 = some rest → b.drop (b.length - rest.length) = rest :=
    fun rest h => drain_suffix (Prod.ext rfl h)
  constructor
  · intro h rest hrest hne
    have hkept := hsuffix rest hrest
    have hlen := congrArg List.length hkept
    rw [List.length_drop] at hlen
    have hpos := List.length_pos_iff.mpr hne
    have hcount : (received D b).2 = some (b.length - rest.length) := by rw [received, hrest]; rfl
    have hstop := h _ hcount (by omega)
    rwa [hkept] at hstop
  · intro h consume hconsume hlt
    obtain ⟨rest, hrest, rfl⟩ := Option.map_eq_some_iff.mp hconsume
    rw [hsuffix rest hrest]
    apply h rest hrest
    rintro rfl
    simp at hlt

theorem handedOut_iff : (received D b).1 ≠ [] ↔ D.next b ≠ .wait := not_congr Decoder.drain_eq_nil

theorem pending_of_completable (hD : FrameLoop D accepts) (hne : rest ≠ [])
    (h : Completable (received D) rest) :
    Pending rest := by
  obtain ⟨f, more, hmore, hf⟩ := h.begun
  obtain ⟨later, hout⟩ := h.handedOut
  have hp : (UcorfHead.factory.parse (rest ++ later)).1 ≠ 0 :=
    fun hzero => handedOut_iff.mp hout (hD.wait _ (.inl hzero))
  obtain ⟨hlen, hmagic, hsize⟩ := UcorfHead.parse_ne_zero.mp hp
  have hservice : ofBE (slice (padded rest) 10 2) ≤ ofBE (slice (rest ++ later) 10 2) :=
    word_le (by omega) hlen
  have hmethod : ofBE (slice (padded rest) 12 2) ≤ ofBE (slice (rest ++ later) 12 2) :=
    word_le (by omega) hlen
  have hmod : (rest ++ later).length % 2 ^ 16 < 2 ^ 16 := Nat.mod_lt _ (by decide)
  refine ⟨?_, ?_, ?_⟩
  · rwa [List.head?_append_of_ne_nil _ hne] at hmagic
  · unfold impliedSize
    omega
  · by_cases hlong : 14 ≤ rest.length
    · obtain ⟨hsizes, hbody⟩ := implied_of_begun hf hlong
      have hlens := congrArg List.length hf
      have hpos := List.length_pos_iff.mpr hmore
      rw [List.length_append, bytes_length] at hlens
      rw [hsizes, hbody]
      omega
    · unfold impliedSize
      omega

theorem completable_of_pending (hD : FrameLoop D accepts) (h : Pending rest) :
    Completable (received D) rest := by
  obtain ⟨hmagic, hsize, hshort⟩ := h
  -- a length that passes the check for every header below 65536 bytes
  obtain ⟨n, hn⟩ : ∃ n, rest.length + n = 65536 * (rest.length + impliedBody rest) + 65535 :=
    ⟨_, Nat.add_sub_cancel' (by omega)⟩
  have hzeros : 14 ≤ n := by omega
  obtain ⟨hsizes, hbody⟩ := implied_zeros rest hzeros
  have hlen : (rest ++ List.replicate n 0).length =
      65536 * (rest.length + impliedBody rest) + 65535 := by
    rw [List.length_append, List.length_replicate, hn]
  have hne : rest ≠ [] := by
    rintro rfl
    cases hmagic
  have hhead : (rest ++ List.replicate n 0).head? = some UcorfHead.magicCode := by
    rw [List.head?_append_of_ne_nil _ hne, hmagic]
  have hp : (UcorfHead.factory.parse (rest ++ List.replicate n 0)).1 ≠ 0 :=
    UcorfHead.parse_ne_zero.mpr ⟨by omega, hhead, by omega⟩
  obtain ⟨hone, hfollow⟩ := UcorfHead.parse_sizes hp
  rw [← hsizes] at hone
  rw [← hbody] at hfollow
  have hfits : (UcorfHead.factory.parse (rest ++ List.replicate n 0)).1 +
      (UcorfHead.factory.parse (rest ++ List.replicate n 0)).2.getFollowBytes ≤
        (rest ++ List.replicate n 0).length := by
    omega
  refine ⟨?_, List.replicate n 0, handedOut_iff.mpr ?_⟩
  · obtain ⟨f, tail, heq, -, hframe, -⟩ := frame_of_parse hp hfits
    have hle : rest.length < f.bytes.length := by omega
    have hpref : rest = f.bytes.take rest.length := by
      have htake := congrArg (List.take rest.length) heq
      rwa [List.take_left, List.take_append_of_le_length (Nat.le_of_lt hle)] at htake
    refine ⟨f, f.bytes.drop rest.length, ?_, ?_⟩
    · intro hnil
      have hdrop := List.drop_eq_nil_iff.mp hnil
      omega
    · conv_lhs => rw [hpref]
      rw [List.length_take_of_le (Nat.le_of_lt hle), List.take_append_drop]
  · by_cases haccepts : accepts (UcorfHead.factory.parse (rest ++ List.replicate n 0)).2
    · obtain ⟨x, hx⟩ := hD.take _ hp hfits haccepts
      simp [hx]
    · obtain ⟨x, hx⟩ := hD.refuse _ hp hfits haccepts
      simp [hx]

theorem wait_of_pending (hD : FrameLoop D accepts) (h : Pending rest) : D.next rest = .wait := by
  apply hD.wait
  by_cases hp : (UcorfHead.factory.parse rest).1 = 0
  · exact .inl hp
  · obtain ⟨hlen, -, -⟩ := UcorfHead.parse_ne_zero.mp hp
    obtain ⟨hsizes, hbody⟩ := implied_of_long hlen
    obtain ⟨hone, hfollow⟩ := UcorfHead.parse_sizes hp
    have hshort := h.short
    right
    omega

/-- A frame that passes the check is taken when it is accepted, and ends the loop when not. -/
theorem next_frame (hD : FrameLoop D accepts) (f : WireFrame)
    (hready : f.head.byteSize ≤ (f.bytes ++ rest).length % 2 ^ 16) :
    (accepts f.head → ∃ x, D.next (f.bytes ++ rest) = .take x f.bytes.length) ∧
      (¬ accepts f.head → ∃ x, D.next (f.bytes ++ rest) = .fail x) := by
  have hparse := parse_frame f hready
  have hlens : f.head.byteSize = 14 + f.head.service.length + f.head.method.length := rfl
  have hp : (UcorfHead.factory.parse (f.bytes ++ rest)).1 ≠ 0 := by
    rw [hparse]
    dsimp only
    omega
  have hsum : (UcorfHead.factory.parse (f.bytes ++ rest)).1 +
      (UcorfHead.factory.parse (f.bytes ++ rest)).2.getFollowBytes = f.bytes.length := by
    rw [hparse, bytes_length, ← f.announced]
  have hfits : (UcorfHead.factory.parse (f.bytes ++ rest)).1 +
      (UcorfHead.factory.parse (f.bytes ++ rest)).2.getFollowBytes ≤ (f.bytes ++ rest).length := by
    rw [hsum, List.length_append]
    exact Nat.le_add_right _ _
  have hhead : (UcorfHead.factory.parse (f.bytes ++ rest)).2 = f.head := by rw [hparse]
  constructor
  · intro haccepts
    have htake := hD.take _ hp hfits (by rwa [hhead])
    rwa [hsum] at htake
  · intro hrefused
    exact hD.refuse _ hp hfits (by rwa [hhead])

theorem orderly_of_waits (hD : FrameLoop D accepts) (h : Waits (received D) b) :
    Orderly accepts b := by
  rw [waits_iff_kept] at h
  induction hn : b.length using Nat.strongRecOn generalizing b with
  | _ n ih =>
    by_cases hwait : (UcorfHead.factory.parse b).1 = 0 ∨
        b.length < (UcorfHead.factory.parse b).1 + (UcorfHead.factory.parse b).2.getFollowBytes
    · have hkept : (D.drain b).2 = some b := by rw [Decoder.drain_wait (hD.wait b hwait)]
      by_cases hne : b = []
      · rw [hne]
        exact .done
      · exact .pending (pending_of_completable hD hne (h b hkept hne))
    · obtain ⟨hp, hfits⟩ := not_or.mp hwait
      obtain ⟨f, rest, rfl, -, -, hready⟩ := frame_of_parse hp (Nat.le_of_not_lt hfits)
      obtain ⟨htake, hrefuse⟩ := next_frame hD f hready
      by_cases haccepts : accepts f.head
      · obtain ⟨x, hx⟩ := htake haccepts
        rw [Decoder.drain_take hx, List.drop_left] at h
        have hlens : f.head.byteSize = 14 + f.head.service.length + f.head.method.length := rfl
        have hlt : rest.length < n := by
          rw [← hn, List.length_append, bytes_length]
          omega
        exact .frame f haccepts hready (ih _ hlt h rfl)
      · exact .refused f haccepts hready

theorem waits_of_orderly (hD : FrameLoop D accepts) (h : Orderly accepts b) :
    Waits (received D) b := by
  rw [waits_iff_kept]
  induction h with
  | done =>
    have hnext : D.next [] = .wait := hD.wait [] (.inl rfl)
    rw [Decoder.drain_wait hnext]
    intro rest hrest hne
    cases hrest
    exact absurd rfl hne
  | pending hpending =>
    rw [Decoder.drain_wait (wait_of_pending hD hpending)]
    intro rest hrest _
    cases hrest
    exact completable_of_pending hD hpending
  | frame f haccepts hready _ ih =>
    obtain ⟨x, hx⟩ := (next_frame hD f hready).1 haccepts
    rwa [Decoder.drain_take hx, List.drop_left]
  | refused f hrefused hready =>
    obtain ⟨x, hx⟩ := (next_frame hD f hready).2 hrefused
    rw [Decoder.drain_fail hx]
    intro rest hrest
    cases hrest

end Loops

section Instances

/-- The service of a header is registered. -/
def Registered (s : ServerImpl) (h : UcorfHead) : Prop :=
  (s.services (IHeader.getService h)).isSome = true

theorem server_loop (s : ServerImpl) : FrameLoop (s.decoder UcorfHead) (Registered s) where
  wait b h := by
    change s.next UcorfHead b = .wait
    unfold ServerImpl.next
    dsimp only
    by_cases hp : (UcorfHead.factory.parse b).1 = 0
    · exact if_pos hp
    · have hshort :
          (UcorfHead.factory.parse b).1 + (UcorfHead.factory.parse b).2.getFollowBytes > b.length :=
        h.resolve_left hp
      exact (if_neg hp).trans (if_pos hshort)
  take b hp hfits haccepts := by
    change ∃ x, s.next UcorfHead b = _
    unfold ServerImpl.next
    dsimp only
    have hgoes : ∀ data, (s.dispatchMsg (UcorfHead.factory.parse b).2 data).1 = true := by
      intro data
      rw [ServerImpl.dispatchMsg_fst]
      exact haccepts
    exact ⟨_, (if_neg hp).trans ((if_neg (Nat.not_lt.mpr hfits)).trans (if_pos (hgoes _)))⟩
  refuse b hp hfits hrefused := by
    change ∃ x, s.next UcorfHead b = _
    unfold ServerImpl.next
    dsimp only
    have hends : ∀ data, ¬ (s.dispatchMsg (UcorfHead.factory.parse b).2 data).1 = true := by
      intro data
      rw [ServerImpl.dispatchMsg_fst]
      exact hrefused
    exact ⟨_, (if_neg hp).trans ((if_neg (Nat.not_lt.mpr hfits)).trans (if_neg (hends _)))⟩

theorem client_loop : FrameLoop (ClientReceive.decoder UcorfHead) fun _ => True where
  wait b h := by
    change ClientReceive.next UcorfHead b = .wait
    unfold ClientReceive.next
    dsimp only
    by_cases hp : (UcorfHead.factory.parse b).1 = 0
    · exact if_pos hp
    · have hshort :
          (UcorfHead.factory.parse b).1 + (UcorfHead.factory.parse b).2.getFollowBytes > b.length :=
        h.resolve_left hp
      exact (if_neg hp).trans (if_pos hshort)
  take b hp hfits _ := by
    change ∃ x, ClientReceive.next UcorfHead b = _
    unfold ClientReceive.next
    dsimp only
    exact ⟨_, (if_neg hp).trans (if_neg (Nat.not_lt.mpr hfits))⟩
  refuse b _ _ hrefused := absurd trivial hrefused

/-- `ClientImpl::OnReceiveData`, which never returns -1. -/
def clientReceive (data : Bytes) : List (ClientReceive.Response UcorfHead) × Option Nat :=
  ((ClientReceive.onReceiveData UcorfHead data).1,
    some (ClientReceive.onReceiveData UcorfHead data).2)

theorem server_received (s : ServerImpl) :
    s.onReceiveData UcorfHead = received (s.decoder UcorfHead) := by
  funext data
  exact receiveLoop_eq_drain s data 0 (Nat.zero_le _)

theorem client_received : clientReceive = received (ClientReceive.decoder UcorfHead) := by
  funext data
  exact ClientReceive.receiveLoop_eq_drain data 0 (Nat.zero_le _)

/-- Each loop waits for something exactly on the orderly buffers. -/
theorem waits_iff (s : ServerImpl) (data : Bytes) :
    (Waits (s.onReceiveData UcorfHead) data ↔ Orderly (Registered s) data) ∧
      (Waits clientReceive data ↔ Orderly (fun _ => True) data) := by
  constructor
  · rw [server_received]
    exact ⟨orderly_of_waits (server_loop s), waits_of_orderly (server_loop s)⟩
  · rw [client_received]
    exact ⟨orderly_of_waits client_loop, waits_of_orderly client_loop⟩

/-- A byte that no frame begins with is kept by both loops. -/
theorem zero_not_waits : (∀ s : ServerImpl, ¬ Waits (s.onReceiveData UcorfHead) [0]) ∧
    ¬ Waits clientReceive [0] := by
  have hnot : ∀ {X : Type} {D : Decoder UInt8 X} {accepts : UcorfHead → Prop}, FrameLoop D accepts →
      ¬ Waits (received D) [0] := by
    intro X D accepts hD h
    have hnext : D.next [0] = .wait := hD.wait [0] (.inl rfl)
    have hstop := waits_iff_kept.mp h [0] (by rw [Decoder.drain_wait hnext]) (by simp)
    exact absurd (pending_of_completable hD (by simp) hstop).magic (by decide)
  constructor
  · intro s
    rw [server_received]
    exact hnot (server_loop s)
  · rw [client_received]
    exact hnot client_loop

end Instances

end Ucorf.ReceiveWaiting
