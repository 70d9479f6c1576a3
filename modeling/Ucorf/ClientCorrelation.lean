import Ucorf.ClientNumbers

/-!
# Correlation of requests and responses

The number of a call is 64 bits wide, the header field that carries it to the server
and back is 32 bits wide. A response finds the channel of its call exactly for the
numbers that fit, as long as no later call has used the same key.
-/
namespace Ucorf.ClientCorrelation

open Ucorf.BigEndian
open Ucorf.Message
open Ucorf.Dispatcher
open Ucorf.Threads
open Ucorf.Client
open Ucorf.ClientSections
open Ucorf.ClientInvariant
open Ucorf.ClientNumbers

section Wire

/-- The header that `Call` fills. -/
def requestHeader (H : Type) [IHeader H] (args : CallArgs) (msgId : Nat) : H :=
  let header := IHeader.setId (IHeader.factory : H) msgId
  let header := IHeader.setType header (if args.response.isSome then .request else .onewayRequest)
  let header := IHeader.setFollowBytes header args.request.length
  let header := IHeader.setService header args.serviceName
  IHeader.setMethod header args.methodName

/-- `Parse` finds `q` in a buffer at whose start the other side serialized `h`. -/
def Received {H : Type} [IHeader H] (h q : H) : Prop :=
  ∃ bytes buf t u, IHeader.serialize h (IHeader.byteSize h) = some bytes ∧ buf ++ t = bytes ++ u ∧
    (IHeader.parse (IHeader.factory : H) buf).1 ≠ 0 ∧
    (IHeader.parse (IHeader.factory : H) buf).2 = q

/-- The header classes that the two sides agree on. -/
inductive HeadKind where
  | ucorf
  | hprose

abbrev HeadKind.Head : HeadKind → Type
  | .ucorf => UcorfHead
  | .hprose => HproseHead

instance (k : HeadKind) : IHeader k.Head :=
  match k with
  | .ucorf => inferInstanceAs (IHeader UcorfHead)
  | .hprose => inferInstanceAs (IHeader HproseHead)

/-- The head that the server sends back has the id of the request. -/
theorem getId_received (k : HeadKind) {h q : k.Head} (hr : Received h q) :
    IHeader.getId q = IHeader.getId h := by
  obtain ⟨bytes, buf, t, u, hbytes, hb, hlen, rfl⟩ := hr
  cases k with
  | ucorf =>
    obtain rfl : bytes = UcorfHead.bytes h :=
      Option.some.inj (hbytes.symm.trans (UcorfHead.serialize_byteSize h))
    exact congrArg UInt32.toNat (UcorfHead.parse_callid UcorfHead.factory hb hlen)
  | hprose =>
    obtain rfl : bytes = HproseHead.bytes h := Option.some.inj hbytes.symm
    exact congrArg HproseHead.getId (HproseHead.parse_bytes HproseHead.factory hb hlen)

/-- The lower half of the number is the id on the wire. -/
theorem getId_requestHeader (k : HeadKind) (args : CallArgs) (msgId : Nat) :
    IHeader.getId (requestHeader k.Head args msgId) = msgId % 2 ^ 32 := by
  cases k with
  | ucorf => exact UInt32.toNat_ofNat'
  | hprose => exact UInt32.toNat_ofNat'

end Wire

section Delivery

variable {D T : Type} [DecidableEq T] [IDispatcher D T]

/-- A response with header id `id` goes to call `i`, registered as `r`, and to no other. -/
structure Delivers (s : State D T) (i : Nat) (r : Reg T) (id : Nat) : Prop where
  key : id = r.msgId
  search : ∀ self data,
    frameNext self ⟨r.tp, id, data⟩ s.shared (.found r.grp) .search =
      some (s.shared, .delivering r.chan)
  alone : ∀ j r', Registered s j r' → r'.chan = r.chan → j = i

omit [DecidableEq T] [IDispatcher D T] in
/-- The search of `OnResponse` gives the channel that is entered under the id. -/
theorem search_iff {s : ClientImpl D T} {r : Reg T} (ho : Owned s r.grp r.tp) (self : Nat)
    (data : Bytes) :
    frameNext self ⟨r.tp, r.msgId, data⟩ s (.found r.grp) .search = some (s, .delivering r.chan) ↔
      Entry s r.grp r.msgId r.chan := by
  obtain ⟨grp, hgrp, -⟩ := ho
  simp only [frameNext, hgrp, Entry, Option.some.injEq, exists_eq_left']
  cases (grp.maps (slot r.msgId))[r.msgId]? <;> simp

/-- Call `i` is the `n`-th one to take a number. -/
def NthDraw (acts : List (Action (Thread T) Label)) (n i : Nat) : Prop :=
  0 < n ∧ (draws acts)[n - 1]? = some i

/-- The response to the `n`-th call is delivered exactly when `n` modulo 2^64 fits into
the header field and the key has not been used again. -/
theorem delivers_iff (cfg : Config) (d : D) (acts : List (Action (Thread T) Label)) (s : State D T)
    (h : run (program cfg D T).step (start d) acts = some s) (n i : Nat) (args : CallArgs)
    (pc : CallPc T)
    (r : Reg T) (ht : s.threads[i]? = some (.call args pc)) (hlive : pc.live = some r)
    (hn : NthDraw acts n i)
    (k : HeadKind) (q reply p : k.Head) (hq : Received (requestHeader k.Head args r.msgId) q)
    (hreply : IHeader.getId reply = IHeader.getId q) (hp : Received reply p) :
    (Delivers s i r (IHeader.getId p) ↔ n % 2 ^ 64 < 2 ^ 32 ∧ ¬ Reused acts s i r) ∧
      ((draws acts).length ≤ 2 ^ 64 → ¬ Reused acts s i r) := by
  have hun : Unerased s i r := by
    refine ⟨args, pc, ht, ?_⟩
    unfold CallPc.live at hlive
    split at hlive <;> cases hlive <;> rfl
  have hgroup := hun.registered.hasGroup
  have hid : r.msgId = n % 2 ^ 64 := by
    have hdraw := msgId_of_draw h hgroup hn.2
    rwa [Nat.sub_add_cancel hn.1] at hdraw
  have hwire : IHeader.getId p = r.msgId % 2 ^ 32 := by
    rw [getId_received k hp, hreply, getId_received k hq, getId_requestHeader k args r.msgId]
  have hfits : IHeader.getId p = r.msgId ↔ n % 2 ^ 64 < 2 ^ 32 := by
    rw [hwire, hid]
    constructor
    · intro he
      rw [← he]
      exact Nat.mod_lt _ (by decide)
    · exact Nat.mod_eq_of_lt
  have hown := own_iff h hun
  have howned := ((wired h).held i r hgroup).1
  refine ⟨?_, fun hlen => not_reused h hlen hun.registered⟩
  constructor
  · intro hd
    have hsearch := hd.search 0 []
    rw [hd.key] at hsearch
    exact ⟨hfits.mp hd.key, hown.mp ((search_iff howned 0 []).mp hsearch)⟩
  · rintro ⟨hlt, hreused⟩
    have hkey := hfits.mpr hlt
    constructor
    · exact hkey
    · intro self data
      rw [hkey]
      exact (search_iff howned self data).mpr (hown.mpr hreused)
    · intro j r' hr' hch
      exact (wired h).distinct j i r' r hr'.hasGroup hgroup hch

end Delivery

section Runs

theorem received_request : Received (requestHeader UcorfHead twoway 1)
    (requestHeader UcorfHead twoway 1) :=
  ⟨_, _, [], [], rfl, rfl, by decide, by decide⟩

theorem delivers_first : ∃ s : State (RobinDispatcher Nat) Nat,
    run (program sampleConfig (RobinDispatcher Nat) Nat).step (start .init) waitingRun = some s ∧
      Delivers s 1 ⟨0, 1, 0, 0⟩ 1 := by
  obtain ⟨s, hs, hwait⟩ :=
    run_exists (program sampleConfig (RobinDispatcher Nat) Nat).step (start .init)
    waitingRun
    (fun s => s.threads[1]? = some (.call twoway (.waiting ⟨0, 1, 0, 0⟩))) (by decide +kernel)
  have hiff :=
    delivers_iff sampleConfig RobinDispatcher.init waitingRun s hs 1 1 twoway _ ⟨0, 1, 0, 0⟩
      (of_decide_eq_true hwait) rfl
    ⟨by decide, rfl⟩ .ucorf (requestHeader UcorfHead twoway 1) (requestHeader UcorfHead twoway 1)
    (requestHeader UcorfHead twoway 1) received_request rfl received_request
  exact ⟨s, hs, hiff.1.mpr ⟨by decide, hiff.2 (by decide)⟩⟩

/-- A run whose `n + 1`-th call waits for its response. -/
def nthRun (n : Nat) : List (Action (Thread Nat) Label) :=
  connectRun ++ (onewayCalls 1 n ++ callRun (n + 1))

/-- After `n` calls that go one way the next call waits with the number `n + 1`. -/
theorem run_nthRun (n : Nat) : ∃ s : State (RobinDispatcher Nat) Nat,
    run (program sampleConfig (RobinDispatcher Nat) Nat).step (start .init) (nthRun n) = some s ∧
      s.threads[n + 1]? = some (.call twoway (.waiting ⟨0, (n + 1) % 2 ^ 64, 0, 0⟩)) := by
  have hcalls := run_onewayCalls n connected [.conn 0 .done] rfl (by decide) (by decide)
  have hlast := run_callRun { connected with msgId := (connected.msgId + n) % 2 ^ 64 }
    ([.conn 0 .done] ++ List.replicate n (.call oneway (.returned .early .ok))) (.init 0)
    rfl (Nat.zero_le 10) rfl rfl rfl
  have hlen : ([Thread.conn 0 .done] ++
      List.replicate n (Thread.call oneway (.returned .early .ok))).length = n + 1 := by
    simp
  rw [hlen] at hlast
  refine ⟨_, run_join run_connectRun (run_join hcalls hlast), ?_⟩
  rw [List.getElem?_append_right (by rw [hlen]), hlen, Nat.sub_self]
  simp [connected]

theorem nthDraw_nthRun (n : Nat) : NthDraw (nthRun n) (n + 1) (n + 1) := by
  have happ : draws (nthRun n) = draws (onewayCalls 1 n) ++ [n + 1] := by
    have hsplit (xs ys : List (Action (Thread Nat) Label)) :
        draws (xs ++ ys) = draws xs ++ draws ys :=
      List.filterMap_append
    rw [nthRun, hsplit, hsplit]
    rfl
  refine ⟨Nat.succ_pos n, ?_⟩
  rw [happ, Nat.add_sub_cancel, List.getElem?_append_right (by rw [length_draws_onewayCalls]),
    length_draws_onewayCalls, Nat.sub_self]
  rfl

theorem received_wrapped :
    Received (requestHeader UcorfHead twoway (2 ^ 32)) (requestHeader UcorfHead twoway (2 ^ 32)) :=
  ⟨_, _, [], [], rfl, rfl, by decide, by decide⟩

/-- The response to call number 2^32 carries the id 0. -/
theorem not_delivers_wide :
    ¬ ∀ (acts : List (Action (Thread Nat) Label)) (s : State (RobinDispatcher Nat) Nat)
      (n i : Nat) args pc r
      (q reply p : UcorfHead),
      run (program sampleConfig (RobinDispatcher Nat) Nat).step (start .init) acts = some s →
      s.threads[i]? = some (.call args pc) → pc.live = some r → NthDraw acts n i →
      Received (requestHeader UcorfHead args r.msgId) q → IHeader.getId reply = IHeader.getId q →
      Received reply p → Delivers s i r (IHeader.getId p) := by
  intro hall
  obtain ⟨s, hs, ht⟩ := run_nthRun (2 ^ 32 - 1)
  have hd :=
    hall _ s _ _ twoway _ _ _ _ _ hs ht rfl (nthDraw_nthRun (2 ^ 32 - 1))
      received_wrapped rfl received_wrapped
  exact absurd hd.key (by decide)

end Runs

end Ucorf.ClientCorrelation
