import Ucorf.ClientReceive
import Ucorf.Server

/-!
# The receive loops and the buffer

The two loops once more, as they run on memory: `Parse` reads through a pointer and a
read outside the received bytes faults, the counters are `size_t` and wrap, and nothing
says yet that the loop comes to an end. On every buffer it ends without a fault and has
done what the loop over byte lists does.
-/
namespace Ucorf.ReceiveSafety

open Ucorf.BigEndian
open Ucorf.Message
open Ucorf.Framing
open Ucorf.Server

/-- Received bytes, as many as a `size_t` counts. -/
structure Buffer where
  data : Bytes
  bound : data.length < 2 ^ 64

/-- Read `n` bytes at the offset `p`. -/
def load (data : Bytes) (p n : Nat) : Option Bytes :=
  if p + n ≤ data.length then some (slice data p n) else none

theorem load_eq {data : Bytes} {p n : Nat} (h : p + n ≤ data.length) :
    load data p n = some (slice data p n) := if_pos h

theorem slice_slice (data : Bytes) (p len : Nat) {off n : Nat} (h : off + n ≤ len) :
    slice (slice data p len) off n = slice data (p + off) n := by
  rw [slice, slice, slice, List.drop_take, List.drop_drop, List.take_take,
    Nat.min_eq_left (by omega)]

/-- `Parse` of a header, through the pointer `p` and for `len` bytes. -/
class MemoryHeader (H : Type) [IHeader H] where
  parseAt : H → Bytes → Nat → Nat → Option (Nat × H)
  parseAt_eq : ∀ (h : H) (data : Bytes) (p len : Nat), p + len ≤ data.length →
    parseAt h data p len = some (IHeader.parse h (slice data p len))
  parse_le : ∀ (h : H) (buf : Bytes), (IHeader.parse h buf).1 ≤ buf.length ∧
    (IHeader.parse h buf).1 < 2 ^ 16
  follow_lt : ∀ h : H, IHeader.getFollowBytes h < 2 ^ 32

section Headers

def ucorfParseAt (h : UcorfHead) (data : Bytes) (p len : Nat) : Option (Nat × UcorfHead) :=
  if len < 14 then some (0, h)
  else do
    let magic ← load data p 1
    if magic ≠ [UcorfHead.magicCode] then some (0, h)
    else do
      let serviceLen ← (load data (p + 10) 2).map ofBE
      let methodLen ← (load data (p + 12) 2).map ofBE
      if len % 2 ^ 16 < 14 + serviceLen + methodLen then some (0, h)
      else do
        let calltype ← load data (p + 1) 1
        let callid ← load data (p + 2) 4
        let bodyLength ← load data (p + 6) 4
        let service ← load data (p + 14) serviceLen
        let method ← load data (p + 14 + serviceLen) methodLen
        some (14 + serviceLen + methodLen, {
          calltype := calltype.getD 0 0
          callid := UInt32.ofNat (ofBE callid)
          bodyLength := UInt32.ofNat (ofBE bodyLength)
          service := service
          method := method })

def hproseParseAt (h : HproseHead) (data : Bytes) (p len : Nat) : Option (Nat × HproseHead) :=
  if len < 8 then some (0, h)
  else do
    let bodyLength ← load data p 4
    let callid ← load data (p + 4) 4
    some (8, ⟨UInt32.ofNat (ofBE callid), UInt32.ofNat (ofBE bodyLength)⟩)

theorem slice_one (buf : Bytes) (off : Nat) (h : off < buf.length) :
    slice buf off 1 = [buf.getD off 0] := by
  rw [slice, List.drop_eq_getElem_cons h, List.take_succ_cons, List.take_zero,
    List.getD_eq_getElem?_getD, List.getElem?_eq_getElem h, Option.getD_some]

theorem ucorfParseAt_eq (h : UcorfHead) (data : Bytes) (p len : Nat) (hle : p + len ≤ data.length) :
    ucorfParseAt h data p len = some (h.parse (slice data p len)) := by
  have hlen : (slice data p len).length = len := by
    rw [slice_length]
    omega
  have hload {off n : Nat} (hin : off + n ≤ len) :
      load data (p + off) n = some (slice (slice data p len) off n) := by
    rw [load_eq (by omega), slice_slice data p len hin]
  unfold ucorfParseAt UcorfHead.parse
  rw [hlen]
  by_cases hshort : len < 14
  · rw [if_pos hshort, if_pos hshort]
  · have hzero : load data p 1 = some (slice (slice data p len) 0 1) := by
      rw [load_eq (by omega), slice_slice data p len (by omega), Nat.add_zero]
    have hhead : slice (slice data p len) 0 1 ≠ [UcorfHead.magicCode] ↔
        (slice data p len).head? ≠ some UcorfHead.magicCode := by
      rw [slice_one _ 0 (by omega), List.head?_eq_getElem?, List.getD_eq_getElem?_getD,
        List.getElem?_eq_getElem (by omega)]
      simp
    rw [if_neg hshort, if_neg hshort, hzero, Option.bind_eq_bind, Option.bind_some]
    by_cases hmagic : (slice data p len).head? ≠ some UcorfHead.magicCode
    · rw [if_pos (hhead.mpr hmagic), if_pos hmagic]
    · rw [if_neg (mt hhead.mp hmagic), if_neg hmagic, hload (by omega), hload (by omega)]
      simp only [Option.map_some, Option.bind_eq_bind, Option.bind_some]
      by_cases hfits : len % 2 ^ 16 <
          14 + ofBE (slice (slice data p len) 10 2) + ofBE (slice (slice data p len) 12 2)
      · rw [if_pos hfits, if_pos hfits]
      · have hmod : len % 2 ^ 16 ≤ len := Nat.mod_le _ _
        rw [if_neg hfits, if_neg hfits, hload (by omega), hload (by omega), hload (by omega),
          hload (by omega), Nat.add_assoc p, hload (by omega)]
        simp only [Option.bind_some, slice_one (slice data p len) 1 (by omega)]
        rfl

theorem hproseParseAt_eq (h : HproseHead) (data : Bytes) (p len : Nat)
    (hle : p + len ≤ data.length) :
    hproseParseAt h data p len = some (h.parse (slice data p len)) := by
  have hlen : (slice data p len).length = len := by
    rw [slice_length]
    omega
  unfold hproseParseAt HproseHead.parse
  rw [hlen]
  by_cases hshort : len < 8
  · rw [if_pos hshort, if_pos hshort]
  · rw [if_neg hshort, if_neg hshort, load_eq (by omega), load_eq (by omega),
      slice_slice data p len (by omega), slice_slice data p len (by omega)]
    rfl

theorem ucorf_parse_le (h : UcorfHead) (buf : Bytes) :
    (h.parse buf).1 ≤ buf.length ∧ (h.parse buf).1 < 2 ^ 16 := by
  by_cases hne : (h.parse buf).1 = 0
  · rw [hne]
    exact ⟨Nat.zero_le _, by decide⟩
  · obtain ⟨hsize, hle⟩ := UcorfHead.parse_sound hne
    have hmod : buf.length % 2 ^ 16 ≤ buf.length := Nat.mod_le _ _
    have hlt : buf.length % 2 ^ 16 < 2 ^ 16 := Nat.mod_lt _ (by decide)
    omega

theorem hprose_parse_le (h : HproseHead) (buf : Bytes) :
    (h.parse buf).1 ≤ buf.length ∧ (h.parse buf).1 < 2 ^ 16 := by
  unfold HproseHead.parse
  split
  · exact ⟨Nat.zero_le _, Nat.two_pow_pos 16⟩
  · exact ⟨by omega, by omega⟩

instance : MemoryHeader UcorfHead where
  parseAt := ucorfParseAt
  parseAt_eq := ucorfParseAt_eq
  parse_le := ucorf_parse_le
  follow_lt h := h.bodyLength.toNat_lt

instance : MemoryHeader HproseHead where
  parseAt := hproseParseAt
  parseAt_eq := hproseParseAt_eq
  parse_le := hprose_parse_le
  follow_lt h := h.bodyLength.toNat_lt

end Headers

/-- A frame as it is handed out: the length of its header, and the body as an offset into
the received bytes and a length. -/
structure Handed (H : Type) where
  header : H
  headLen : Nat
  off : Nat
  len : Nat

section Loop

variable {H : Type} [IHeader H] [MemoryHeader H]

/-- The loop with its three variables, `none` when `fuel` rounds are not enough or a read
faults. `handle` is `DispatchMsg` or `OnResponse`, and tells whether the loop goes on. -/
def receiveAt (handle : H → Bytes → Bool) (data : Bytes) :
    Nat → Nat → Nat → Nat → Option (List (Handed H) × Option Nat)
  | 0, _, _, _ => none
  | fuel + 1, consume, buf, len =>
    if consume < data.length then do
      let parsed ← MemoryHeader.parseAt (IHeader.factory : H) data buf len
      if parsed.1 = 0 then some ([], some consume)
      else
        let followBytes := IHeader.getFollowBytes parsed.2
        let size := (parsed.1 + followBytes) % 2 ^ 64
        if size > len then some ([], some consume)
        else do
          let body ← load data (buf + parsed.1) followBytes
          let x : Handed H := ⟨parsed.2, parsed.1, buf + parsed.1, followBytes⟩
          if handle parsed.2 body then do
            let consume := (consume + size) % 2 ^ 64
            let rest ← receiveAt handle data fuel consume consume
              ((data.length + 2 ^ 64 - consume) % 2 ^ 64)
            some (x :: rest.1, rest.2)
          else some ([x], none)
    else some ([], some consume)

/-- What is handed out and returned when the loop stands at `consume`. -/
structure ContainedFrom (data : Bytes) (consume : Nat)
    (r : List (Handed H) × Option Nat) : Prop where
  inside : ∀ x ∈ r.1, consume ≤ x.off ∧ x.off + x.len ≤ data.length
  ordered : r.1.Pairwise fun x y => x.off + x.len ≤ y.off
  counted : ∀ n, r.2 = some n → n ≤ data.length ∧
    n = consume + (r.1.map fun x => x.headLen + x.len).sum

section Contained

variable {data : Bytes} {consume : Nat}

omit [IHeader H] [MemoryHeader H]

theorem ContainedFrom.stop (hle : consume ≤ data.length) :
    ContainedFrom (H := H) data consume ([], some consume) where
  inside := by simp
  ordered := List.Pairwise.nil
  counted := by
    intro n hn
    obtain rfl := Option.some.inj hn
    exact ⟨hle, rfl⟩

/-- The frame on which the loop gives up. -/
theorem ContainedFrom.last {x : Handed H} (hoff : x.off = consume + x.headLen)
    (hx : x.off + x.len ≤ data.length) :
    ContainedFrom data consume ([x], none) where
  inside := by
    intro y hy
    obtain rfl := List.mem_singleton.mp hy
    omega
  ordered := List.pairwise_singleton _ _
  counted := by
    intro n hn
    cases hn

theorem ContainedFrom.cons {x : Handed H} {r : List (Handed H) × Option Nat}
    (hoff : x.off = consume + x.headLen)
    (hx : x.off + x.len ≤ data.length) (hr : ContainedFrom data (consume + (x.headLen + x.len)) r) :
    ContainedFrom data consume (x :: r.1, r.2) where
  inside := by
    intro y hy
    cases hy with
    | head => omega
    | tail _ hy =>
      have hinside := hr.inside y hy
      omega
  ordered := by
    refine List.Pairwise.cons ?_ hr.ordered
    intro y hy
    have hinside := hr.inside y hy
    omega
  counted := by
    intro n hn
    obtain ⟨hn, hsum⟩ := hr.counted n hn
    refine ⟨hn, ?_⟩
    rw [List.map_cons, List.sum_cons, hsum, Nat.add_assoc]

end Contained

variable {X : Type} {D : Decoder UInt8 X} {handle : H → Bytes → Bool} {item : H → Bytes → X}

/-- What the loops over byte lists do with the bytes that are left. -/
def frameNext (handle : H → Bytes → Bool) (item : H → Bytes → X) (buf : Bytes) : Outcome X :=
  let parsed := IHeader.parse (IHeader.factory : H) buf
  if parsed.1 = 0 then .wait
  else if parsed.1 + IHeader.getFollowBytes parsed.2 > buf.length then .wait
  else
    let body := slice buf parsed.1 (IHeader.getFollowBytes parsed.2)
    if handle parsed.2 body then .take (item parsed.2 body)
      (parsed.1 + IHeader.getFollowBytes parsed.2)
    else .fail (item parsed.2 body)

variable (handle) in
/-- One round, at the pointer and the length that go with the count. -/
theorem receiveAt_succ {data : Bytes} (hbound : data.length < 2 ^ 64) {consume : Nat}
    (hle : consume ≤ data.length)
    (fuel : Nat) :
    receiveAt handle data (fuel + 1) consume consume (data.length - consume) =
      let parsed := IHeader.parse (IHeader.factory : H) (data.drop consume)
      let follow := IHeader.getFollowBytes parsed.2
      let body := slice data (consume + parsed.1) follow
      if parsed.1 = 0 ∨ parsed.1 + follow > data.length - consume then some ([], some consume)
      else if handle parsed.2 body then
        (receiveAt handle data fuel (consume + (parsed.1 + follow)) (consume + (parsed.1 + follow))
          (data.length - (consume + (parsed.1 + follow)))).map fun rest =>
            (⟨parsed.2, parsed.1, consume + parsed.1, follow⟩ :: rest.1, rest.2)
      else some ([⟨parsed.2, parsed.1, consume + parsed.1, follow⟩], none) := by
  have hall : slice data consume (data.length - consume) = data.drop consume := by
    rw [slice, ← List.length_drop, List.take_length]
  have hparse :=
    MemoryHeader.parseAt_eq (IHeader.factory : H) data consume (data.length - consume) (by omega)
  obtain ⟨hhead, hsmall⟩ := MemoryHeader.parse_le (IHeader.factory : H) (data.drop consume)
  rw [hall] at hparse
  rw [List.length_drop] at hhead
  simp only [receiveAt, hparse]
  generalize IHeader.parse (IHeader.factory : H) (data.drop consume) = parsed at *
  have hfollow := MemoryHeader.follow_lt parsed.2
  have hsize : (parsed.1 + IHeader.getFollowBytes parsed.2) % 2 ^ 64 =
      parsed.1 + IHeader.getFollowBytes parsed.2 :=
    Nat.mod_eq_of_lt (by omega)
  by_cases hzero : parsed.1 = 0
  · simp [hzero]
  · by_cases hlong : parsed.1 + IHeader.getFollowBytes parsed.2 > data.length - consume
    · simp only [Option.bind_eq_bind, Option.bind_some, if_neg hzero, hsize, if_pos hlong,
        if_pos (Or.inr hlong), ite_self]
    · have hcount : consume < data.length := by omega
      have hload : load data (consume + parsed.1) (IHeader.getFollowBytes parsed.2) =
          some (slice data (consume + parsed.1) (IHeader.getFollowBytes parsed.2)) :=
          load_eq (by omega)
      have hnext : (consume + (parsed.1 + IHeader.getFollowBytes parsed.2)) % 2 ^ 64 =
          consume + (parsed.1 + IHeader.getFollowBytes parsed.2) := Nat.mod_eq_of_lt (by omega)
      have hrest : (data.length + 2 ^ 64 - (consume + (parsed.1 + IHeader.getFollowBytes
          parsed.2))) % 2 ^ 64 =
            data.length - (consume + (parsed.1 + IHeader.getFollowBytes parsed.2)) := by omega
      have hgo : ¬ (parsed.1 = 0 ∨
          parsed.1 + IHeader.getFollowBytes parsed.2 > data.length - consume) := by omega
      rw [if_pos hcount, Option.bind_eq_bind, Option.bind_some, if_neg hzero, hsize, if_neg hlong,
        hload, Option.bind_eq_bind, Option.bind_some, hnext, hrest, if_neg hgo]
      split
      · cases receiveAt handle data fuel _ _ _ <;> rfl
      · rfl

/-- With a round for every byte that is left, the loop ends without a fault, has stayed
inside the data, and has done what the decoder of its rounds does. -/
theorem receiveAt_drain {data : Bytes} (hbound : data.length < 2 ^ 64)
    (hD : ∀ b, D.next b = frameNext handle item b)
    (consume : Nat) (hle : consume ≤ data.length) :
    ∃ r, (∀ fuel, data.length - consume < fuel →
        receiveAt handle data fuel consume consume (data.length - consume) = some r) ∧
      ContainedFrom data consume r ∧
      D.drain (data.drop consume) =
        (r.1.map fun x => item x.header (slice data x.off x.len),
          r.2.map fun n => data.drop n) := by
  induction hleft : data.length - consume using Nat.strongRecOn generalizing consume with
  | _ left ih =>
    subst hleft
    have hround := fun fuel => receiveAt_succ handle hbound hle fuel
    have hnext := hD (data.drop consume)
    obtain ⟨hhead, -⟩ := MemoryHeader.parse_le (IHeader.factory : H) (data.drop consume)
    simp only [frameNext] at hnext
    generalize IHeader.parse (IHeader.factory : H) (data.drop consume) = parsed at *
    simp only [List.length_drop] at hround hnext hhead
    by_cases hstop : parsed.1 = 0 ∨
      parsed.1 + IHeader.getFollowBytes parsed.2 > data.length - consume
    · refine ⟨([], some consume), ?_, .stop hle, ?_⟩
      · intro fuel hfuel
        obtain ⟨fuel, rfl⟩ := Nat.exists_eq_succ_of_ne_zero (Nat.ne_of_gt (Nat.zero_lt_of_lt hfuel))
        rw [hround, if_pos hstop]
      · have hwait : D.next (data.drop consume) = .wait := by
          rw [hnext]
          split
          · rfl
          · rw [if_pos (hstop.resolve_left ‹_›)]
        rw [Decoder.drain_wait hwait]
        rfl
    · obtain ⟨hzero, hfits⟩ := not_or.mp hstop
      have hbody : slice (data.drop consume) parsed.1 (IHeader.getFollowBytes parsed.2) =
          slice data (consume + parsed.1) (IHeader.getFollowBytes parsed.2) := by
        rw [slice, slice, List.drop_drop]
      rw [if_neg hzero, if_neg hfits, hbody] at hnext
      by_cases hgo : handle parsed.2
        (slice data (consume + parsed.1) (IHeader.getFollowBytes parsed.2)) = true
      · obtain ⟨rest, hruns, hcontained, hdrain⟩ :=
          ih (data.length - (consume + (parsed.1 + IHeader.getFollowBytes parsed.2))) (by omega)
            (consume + (parsed.1 + IHeader.getFollowBytes parsed.2)) (by omega) rfl
        refine ⟨(⟨parsed.2, parsed.1, consume + parsed.1, IHeader.getFollowBytes parsed.2⟩ ::
          rest.1, rest.2),
          ?_, .cons rfl ?_ hcontained, ?_⟩
        · intro fuel hfuel
          obtain ⟨fuel, rfl⟩ :=
            Nat.exists_eq_succ_of_ne_zero (Nat.ne_of_gt (Nat.zero_lt_of_lt hfuel))
          rw [hround, if_neg hstop, if_pos hgo, hruns fuel (by omega)]
          rfl
        · dsimp only
          omega
        · rw [if_pos hgo] at hnext
          rw [Decoder.drain_take hnext, List.drop_drop, hdrain]
          rfl
      · refine ⟨([⟨parsed.2, parsed.1, consume + parsed.1, IHeader.getFollowBytes parsed.2⟩], none),
          ?_, .last rfl ?_, ?_⟩
        · intro fuel hfuel
          obtain ⟨fuel, rfl⟩ :=
            Nat.exists_eq_succ_of_ne_zero (Nat.ne_of_gt (Nat.zero_lt_of_lt hfuel))
          rw [hround, if_neg hstop, if_neg hgo]
        · dsimp only
          omega
        · rw [if_neg hgo] at hnext
          rw [Decoder.drain_fail hnext]
          rfl

end Loop

section Sides

variable (H : Type) [IHeader H] [MemoryHeader H]

/-- The server's loop over its memory. -/
def serverLoop (s : ServerImpl) (buf : Buffer) (fuel : Nat) :
    Option (List (Handed H) × Option Nat) :=
  receiveAt (fun (header : H) body => (s.dispatchMsg header body).1)
    buf.data fuel 0 0 buf.data.length

/-- The client's: `OnResponse` returns nothing. -/
def clientLoop (buf : Buffer) (fuel : Nat) : Option (List (Handed H) × Option Nat) :=
  receiveAt (fun (_ : H) _ => true) buf.data fuel 0 0 buf.data.length

/-- What a frame carries. -/
def Handed.content {H : Type} (buf : Buffer) (x : Handed H) : H × Bytes :=
  (x.header, slice buf.data x.off x.len)

/-- The loop ends with `r` whatever rounds it is allowed beyond one for each byte, and
`r` lies inside the buffer. -/
def EndsInside {H : Type} (loop : Nat → Option (List (Handed H) × Option Nat)) (buf : Buffer)
    (r : List (Handed H) × Option Nat) : Prop :=
  (∀ fuel, buf.data.length < fuel → loop fuel = some r) ∧ ContainedFrom buf.data 0 r

variable {H}

theorem server_inside (s : ServerImpl) (buf : Buffer) : ∃ r, EndsInside (serverLoop H s buf) buf r ∧
    (s.onReceiveData H buf.data).1.map (fun x => (x.header, x.data)) =
      r.1.map (Handed.content buf) ∧
    (s.onReceiveData H buf.data).2 = r.2 := by
  have hnext : ∀ b, (s.decoder H).next b =
      frameNext (fun header body => (s.dispatchMsg header body).1)
        (fun header body => ⟨header, body, (s.dispatchMsg header body).2⟩) b := fun _ => rfl
  obtain ⟨r, hruns, hcontained, hdrain⟩ := receiveAt_drain buf.bound hnext 0 (Nat.zero_le _)
  refine ⟨r, ⟨hruns, hcontained⟩, ?_⟩
  rw [ServerImpl.onReceiveData, receiveLoop_eq_drain s buf.data 0 (Nat.zero_le _), hdrain]
  refine ⟨?_, ?_⟩
  · rw [List.map_map]
    rfl
  · cases hcount : r.2 with
    | none => rfl
    | some n =>
      have hn := (hcontained.counted n hcount).1
      simp only [Option.map_some, List.length_drop]
      rw [Nat.sub_sub_self hn]

theorem client_inside (buf : Buffer) : ∃ r n, EndsInside (clientLoop H buf) buf (r, some n) ∧
    (ClientReceive.onReceiveData H buf.data).1.map (fun x => (x.header, x.data)) =
      r.map (Handed.content buf) ∧
    (ClientReceive.onReceiveData H buf.data).2 = n := by
  have hnext : ∀ b, (ClientReceive.decoder H).next b =
      frameNext (fun _ _ => true) (fun header body => ⟨header, body⟩) b := fun _ => rfl
  obtain ⟨r, hruns, hcontained, hdrain⟩ := receiveAt_drain buf.bound hnext 0 (Nat.zero_le _)
  have hloop := ClientReceive.receiveLoop_eq_drain (H := H) buf.data 0 (Nat.zero_le _)
  rw [hdrain] at hloop
  obtain ⟨hcalls, hcount⟩ := Prod.mk.inj hloop
  cases hr : r.2 with
  | none =>
    rw [hr] at hcount
    cases hcount
  | some n =>
    have hn := (hcontained.counted n hr).1
    have hpair : r = (r.1, some n) := Prod.ext rfl hr
    refine ⟨r.1, n, ⟨hpair ▸ hruns, hpair ▸ hcontained⟩, ?_, ?_⟩
    · rw [ClientReceive.onReceiveData, hcalls, List.map_map]
      rfl
    · rw [hr] at hcount
      calc (ClientReceive.receiveLoop H buf.data 0).2
          = buf.data.length - (buf.data.drop n).length := Option.some.inj hcount
        _ = n := by rw [List.length_drop, Nat.sub_sub_self hn]

end Sides

/-- Both loops, for both headers. -/
theorem loops_inside (s : ServerImpl) (buf : Buffer) :
    (∃ r, EndsInside (serverLoop UcorfHead s buf) buf r ∧
      (s.onReceiveData UcorfHead buf.data).1.map (fun x => (x.header, x.data)) =
        r.1.map (Handed.content buf) ∧
      (s.onReceiveData UcorfHead buf.data).2 = r.2) ∧
    (∃ r, EndsInside (serverLoop HproseHead s buf) buf r ∧
      (s.onReceiveData HproseHead buf.data).1.map (fun x => (x.header, x.data)) =
        r.1.map (Handed.content buf) ∧
      (s.onReceiveData HproseHead buf.data).2 = r.2) ∧
    (∃ r n, EndsInside (clientLoop UcorfHead buf) buf (r, some n) ∧
      (ClientReceive.onReceiveData UcorfHead buf.data).1.map (fun x => (x.header, x.data)) =
        r.map (Handed.content buf) ∧
      (ClientReceive.onReceiveData UcorfHead buf.data).2 = n) ∧
    ∃ r n, EndsInside (clientLoop HproseHead buf) buf (r, some n) ∧
      (ClientReceive.onReceiveData HproseHead buf.data).1.map (fun x => (x.header, x.data)) =
        r.map (Handed.content buf) ∧
      (ClientReceive.onReceiveData HproseHead buf.data).2 = n :=
  ⟨server_inside s buf, server_inside s buf, client_inside buf, client_inside buf⟩

end Ucorf.ReceiveSafety
