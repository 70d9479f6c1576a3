import Ucorf.ClientCorrelation
import Ucorf.ClientFraming
import Ucorf.HproseTransparency
import Ucorf.Handlers
import Mathlib.Data.List.Forall2

/-!
# Remote calls are calls

Any number of clients call functions through `Hprose_ServiceStub`, each on a connection
of its own, and the functions work on one shared state. A handler looks its function up in
one section and runs it in another, and between the two the handlers of other connections
run and functions get registered. Whatever the network does to the streams, the calls run
once each and in one order that keeps the order of every client, and every client reads
the results that its own calls gave there.
-/
namespace Ucorf.HproseSessions

open Ucorf.Message
open Ucorf.Framing
open Ucorf.Threads
open Ucorf.Client
open Ucorf.ClientCorrelation
open Ucorf.ClientReceive
open Ucorf.HproseProtocol
open Ucorf.HproseRoundTrip
open Ucorf.HproseService
open Ucorf.HproseTransparency
open Ucorf.Sessions hiding IService ServerImpl Session State Event step start chunksOf
open Ucorf.Handlers

section Service

variable {τ : Type}

/-- `Hprose_Message`. -/
def hproseMessage (body : Bytes) : IMessage :=
  ⟨body.length, fun len => if len < body.length then none else some (body.take len)⟩

def serviceName : Bytes := ascii "hprose"

/-- The sections of `CallMethod`: it looks into `functions_` under `func_mutex_`, and then runs
the function that it found there. What it reads off the request is its own. -/
def hproseHandler (τ : Type) (data : Bytes) : Handler (Functions τ × τ) StdException :=
  .work
    (fun found => .work
      (fun st =>
        match callMethod found.1 data st.2 with
        | .error e => .threw e
        | .ok answer => .returned (some (hproseMessage answer.body)))
      (fun st =>
        match callMethod found.1 data st.2 with
        | .error _ => st
        | .ok answer => (st.1, answer.st)))
    id

/-- `Hprose_Service` over its table and what the functions work on. -/
def hproseService (τ : Type) : IService (Functions τ × τ) StdException where
  name := serviceName
  callMethod := fun _ data => hproseHandler τ data

/-- A server that only has the service of hprose. -/
def hproseServer (τ : Type) : ServerImpl (Functions τ × τ) StdException where
  services := fun n => if n = (hproseService τ).name then some (hproseService τ) else none

/-- `RegisterFunction` from some other coroutine. -/
def register (entry : Bytes × Callee τ) (st : Functions τ × τ) : Functions τ × τ :=
  ((registerFunction st.1 entry.1 entry.2).2, st.2)

/-- What is registered stays registered. -/
theorem register_keeps {st : Functions τ × τ} {method : Bytes} {callee : Callee τ}
    (h : st.1[method]? = some callee) (entry : Bytes × Callee τ) :
    (register entry st).1[method]? = some callee := by
  simp only [register, registerFunction]
  split
  · exact h
  · rename_i hnew
    have hne : ¬ entry.1 = method := by
      rintro rfl
      exact hnew (Std.ExtTreeMap.contains_eq_isSome_getElem?.trans (by rw [h]; rfl))
    simpa [Std.ExtTreeMap.getElem?_insert, hne] using h

/-- The call of a registered function that its stub makes, its argument and result small
enough for the lengths that the format writes down. -/
structure Request (functions : Functions τ) where
  msgId : Nat
  method : Bytes
  callee : Callee τ
  args : Vals callee.args
  entry : functions[method]? = some callee
  ascii : ∀ c ∈ method, c.toNat < 128
  methodShort : method.length < 2 ^ 31
  argsPlain : ∀ t ∈ callee.args, Plain t
  resultPlain : Plain callee.result
  argsShort : ShortArgs callee.args args
  resultShort : ∀ st, Short callee.result (callee.fn args st).1
  fits : (requestBody method callee.args args).length < 2 ^ 32
  replyFits : ∀ st, (r2Hprose callee.result (callee.fn args st).1).length < 2 ^ 32

variable {functions : Functions τ}

namespace Request

def body (r : Request functions) : Bytes := requestBody r.method r.callee.args r.args

/-- The header that `Call` makes for the stub. -/
def head (r : Request functions) : HproseHead :=
    requestHeader HproseHead ⟨[], [], r.body, some 0⟩ r.msgId

def frame (r : Request functions) : ClientFraming.Frame :=
  ⟨r.head, r.body, UInt32.toNat_ofNat_of_lt' r.fits⟩

/-- What the call gives at the state that it finds. -/
def value (r : Request functions) (st : τ) : r.callee.result.Val := (r.callee.fn r.args st).1

def after (r : Request functions) (st : τ) : τ := (r.callee.fn r.args st).2

end Request

/-- A call that has run, and its result. -/
structure Answer (functions : Functions τ) where
  request : Request functions
  value : request.callee.result.Val
  fits : (r2Hprose request.callee.result value).length < 2 ^ 32
  short : Short request.callee.result value

def Answer.frame (a : Answer functions) : ClientFraming.Frame :=
  ⟨a.request.head.setFollowBytes (r2Hprose a.request.callee.result a.value).length,
    r2Hprose a.request.callee.result a.value, UInt32.toNat_ofNat_of_lt' a.fits⟩

/-- The function is called. -/
def Request.answer (r : Request functions) (st : τ) : Answer functions :=
  ⟨r, r.value st, r.replyFits st, r.resultShort st⟩

/-- The calls one after the other, without a network. -/
def callAll {S : Type} (st : τ) : List (S × Request functions) → τ × List (S × Answer functions)
  | [] => (st, [])
  | (i, r) :: order =>
    let rest := callAll (r.after st) order
    (rest.1, (i, r.answer st) :: rest.2)

/-- What `OnResponse` is given belongs to the call, and the stub reads its result there. -/
def Delivers (a : Answer functions) (x : Response HproseHead) : Prop :=
  IHeader.getId x.header = a.request.msgId % 2 ^ 32 ∧
    ∀ transport, transport a.request.body = (BoostEc.ok, x.data) →
      stubCallMethod transport a.request.callee.result a.request.method
        a.request.callee.args a.request.args =
        .ok (a.value, BoostEc.ok)

theorem delivers_item (a : Answer functions) : Delivers a a.frame.item := by
  constructor
  · exact UInt32.toNat_ofNat'
  · intro transport h
    rw [stubCallMethod_ok h]
    exact readResponse_result a.request.resultPlain a.short BoostEc.ok

theorem callMethod_request (r : Request functions) {table : Functions τ}
    (htable : table[r.method]? = some r.callee) (st : τ) : callMethod table r.body st =
      .ok ⟨r2Hprose r.callee.result (r.value st), r.after st,
        [⟨r.method, r.callee.args, r.args⟩]⟩ := by
  obtain ⟨reader, hrest, hcall⟩ :=
    callMethod_requestBody table r.ascii r.methodShort r.callee.args r.args st
  have hread := readArgs_append r.callee.args r.argsPlain r.args r.argsShort hrest
  rw [Request.body, hcall]
  simp only [HproseService.call, htable, Callee.call, hread]
  rfl

/-- Alone, the handler gives the result of the function. -/
theorem outcome_request (r : Request functions) {table : Functions τ}
    (htable : table[r.method]? = some r.callee) (st : τ) :
    (hproseHandler τ r.body).outcome (table, st) =
      .ok (some (hproseMessage (r2Hprose r.callee.result (r.value st))), table, r.after st) := by
  simp only [hproseHandler, Handler.outcome, id, callMethod_request r htable st]

/-- The server runs the function and sends the frame of its result. -/
theorem dispatchMsg_request (r : Request functions) {table : Functions τ}
    (htable : table[r.method]? = some r.callee) (st : τ) :
    (hproseServer τ).sequential.dispatchMsg r.head r.body (table, st) =
      .ok (true, some (r.answer st).frame.encode, table, r.after st) := by
  have hservice : (hproseServer τ).services (IHeader.getService r.head) =
      some (hproseService τ) := rfl
  rw [dispatchMsg_sequential hservice (outcome_request r htable st)]
  have htype : (IHeader.getType r.head : HeaderType) ≠ .onewayRequest := by
    intro h
    cases h
  simp only [Option.bind_some, reply, if_pos htype, hproseMessage, Nat.lt_irrefl, if_false,
    List.take_length]
  rfl

/-- The server has every function of the table under its name. -/
def Extends (functions table : Functions τ) : Prop :=
  ∀ (method : Bytes) (callee : Callee τ), functions[method]? = some callee →
  table[method]? = some callee

/-- What was registered when a handler looked still is when the function runs, so the call acts
in the section of its function. -/
theorem acts_request (r : Request functions) (st₀ : τ) :
    Acts (fun st later : Functions τ × τ => Extends st.1 later.1) (hproseHandler τ r.body).outcome
      (functions, st₀) (hproseHandler τ r.body) := by
  intro found hfound
  refine .inr (.inl ⟨rfl, ?_⟩)
  intro st hst
  have hthen : found.1[r.method]? = some r.callee := hfound r.method r.callee r.entry
  have hnow : st.1[r.method]? = some r.callee := hst r.method r.callee hthen
  simp only [callMethod_request r hthen st.2]
  exact .inl ⟨_, outcome_request r hnow st.2, fun _ _ h => h, rfl⟩

end Service

section Stream

variable {τ : Type} {functions : Functions τ}

/-- The server looks at bytes as a client does: every header of hprose names its service. -/
theorem next_hproseServer (b : Bytes) : Sessions.next HproseHead (hproseServer τ).sequential b =
    (ClientReceive.next HproseHead b).map fun x => (x.header, x.data) := by
  have hknown (header : HproseHead) :
      ((hproseServer τ).sequential.services (IHeader.getService header)).isSome := rfl
  simp only [Sessions.next, ClientReceive.next, hknown, if_true]
  split
  · rfl
  · split <;> rfl

theorem requests_codec : Codec (requests HproseHead (hproseServer τ).sequential)
    (fun r : Request functions => r.frame.encode)
      (fun r => (r.head, r.body)) fun r n => r.frame.encode.length ≤ n := by
  refine prompt_codec rfl ?_
  intro r b t u hb
  have hnext : (requests HproseHead (hproseServer τ).sequential).next b = _ := next_hproseServer b
  rw [hnext, ClientFraming.next_frame hb]
  split <;> rfl

theorem frame_pos (f : ClientFraming.Frame) : 0 < f.encode.length := by
  rw [ClientFraming.encode_length]
  omega

/-- The calls whose last byte has arrived. -/
def arrivedCalls (calls : List (Request functions)) (n : Nat) : List (Request functions) :=
  arrived (fun r => r.frame.encode.length) calls n

/-- Of a stream of calls the server finds those that have arrived. -/
theorem feed_calls {calls : List (Request functions)} {chunks : List Bytes} {later : Bytes}
    (h : chunks.flatten ++ later = stream (fun r : Request functions => r.frame.encode) calls) :
    ((requests HproseHead (hproseServer τ).sequential).feed [] chunks).1 =
      (arrivedCalls calls chunks.flatten.length).map fun r => (r.head, r.body) := by
  have hzero := arrived_zero (fun r : Request functions => frame_pos r.frame) calls
  have hfeed := feed_arrived requests_codec [] chunks (t := later) (by simpa using h) hzero
  rw [List.nil_append] at hfeed
  rw [hfeed]
  rfl

theorem arrivedCalls_first (calls : List (Request functions)) (n : Nat) :
    arrivedCalls calls n <+: calls := by
  obtain ⟨post, hsplit, -⟩ :=
    arrived_split (fun r : Request functions => r.frame.encode.length) calls n
  exact ⟨post, hsplit.symm⟩

/-- A client hands out the replies that have arrived, in order. -/
theorem delivers_of_sent (answers : List (Answer functions)) {chunks : List Bytes}
    (h : chunks.flatten <+: answers.flatMap fun a => a.frame.encode) :
    ∃ responses rest got, receiveAll HproseHead [] chunks = (responses, rest) ∧ got <+: answers ∧
      List.Forall₂ Delivers got responses ∧
      ((chunks.flatten = answers.flatMap fun a => a.frame.encode) → rest = [] ∧ got = answers) := by
  obtain ⟨later, hlater⟩ := h
  have hb : [] ++ chunks.flatten ++ later =
      stream (fun a : Answer functions => a.frame.encode) answers := hlater
  have hcodec : Codec (decoder HproseHead) (fun a : Answer functions => a.frame.encode)
      (fun a => a.frame.item) fun a n => a.frame.encode.length ≤ n :=
    prompt_codec rfl ClientFraming.next_frame
  have hpos (a : Answer functions) : 0 < a.frame.encode.length := frame_pos a.frame
  have hfeed := feed_arrived hcodec [] chunks hb (arrived_zero hpos answers)
  rw [← receiveAll_eq_feed] at hfeed
  obtain ⟨hitems, hrest⟩ := Prod.mk.inj hfeed
  obtain ⟨post, hsplit, -⟩ :=
    arrived_split (fun a : Answer functions => a.frame.encode.length) answers
    ([] ++ chunks.flatten).length
  refine ⟨_, _, _, Prod.ext hitems (Option.some.inj hrest), ⟨post, hsplit.symm⟩, ?_, ?_⟩
  · rw [List.forall₂_map_right_iff]
    exact List.forall₂_same.mpr fun a _ => delivers_item a
  · intro hall
    have hlength : ([] ++ chunks.flatten).length =
        total (fun a : Answer functions => a.frame.encode.length) answers := by
      rw [List.nil_append, hall]
      exact length_stream (fun a : Answer functions => a.frame.encode) answers
    rw [hlength, arrived_total, ← hlength, List.drop_length]
    exact ⟨rfl, rfl⟩

end Stream

section Order

variable {τ S : Type} [DecidableEq S] {functions : Functions τ}

/-- The calls of a log with their connections. -/
def callOf : Op S HproseHead (Bytes × Callee τ) → Option (S × HproseHead × Bytes)
  | .call i header data => some (i, header, data)
  | .change _ => none

theorem part_calls (i : S) (log : List (Op S HproseHead (Bytes × Callee τ))) :
    part i (log.filterMap callOf) = callsOf i log := by
  induction log with
  | nil => rfl
  | cons op log ih =>
    rw [callsOf_cons, ← ih]
    cases op with
    | change w => rfl
    | call j header data =>
      by_cases hj : j = i
      · simp [callOf, Op.callOf, hj]
      · simp [callOf, Op.callOf, part_cons_other hj, hj]

/-- Where a log holds the calls of `order`, the server did what these calls do. -/
theorem replay_order {table table' : Functions τ} {st st' : τ}
    {order : List (S × Request functions)} {log : List (Op S HproseHead (Bytes × Callee τ))}
    {answers : List (Op S HproseHead (Bytes × Callee τ) × Bytes)}
    (hcalls : order.map (fun p => (p.1, p.2.head, p.2.body)) = log.filterMap callOf)
    (htable : Extends functions table)
    (h : replay (hproseServer τ).sequential register (table, st) log =
      some ((table', st'), answers)) :
    Extends functions table' ∧ st' = (callAll st order).1 ∧
      ∀ i, answersTo i answers = (part i (callAll st order).2).flatMap fun a => a.frame.encode := by
  induction log generalizing table st order answers with
  | nil =>
    cases h
    have hnil : order = [] := by simpa using hcalls
    subst hnil
    exact ⟨htable, rfl, fun i => rfl⟩
  | cons op log ih =>
    rw [replay, Option.bind_eq_some_iff] at h
    obtain ⟨⟨⟨table₁, st₁⟩, sent⟩, hserve, h⟩ := h
    rw [Option.map_eq_some_iff] at h
    obtain ⟨⟨_, rest⟩, hrest, h⟩ := h
    cases h
    cases op with
    | change w =>
      cases hserve
      have hkeep : Extends functions (register w (table, st)).1 := by
        intro method callee he
        have hentry : (table, st).1[method]? = some callee := htable method callee he
        exact register_keeps hentry w
      obtain ⟨htable', hst, hanswers⟩ := ih hcalls hkeep hrest
      refine ⟨htable', hst, fun i => ?_⟩
      rw [answersTo_cons, hanswers i]
      rfl
    | call j header data =>
      cases order with
      | nil => cases hcalls
      | cons p order =>
        obtain ⟨k, r⟩ := p
        have hlog : (Op.call j header data :: log).filterMap callOf = (j, header, data) ::
            log.filterMap callOf := rfl
        rw [List.map_cons, hlog] at hcalls
        obtain ⟨hcall, hrestCalls⟩ := List.cons.inj hcalls
        cases hcall
        rw [serve_call (dispatchMsg_request r (htable r.method r.callee r.entry) st)] at hserve
        cases hserve
        obtain ⟨htable', hst, hanswers⟩ := ih hrestCalls htable hrest
        refine ⟨htable', hst, fun i => ?_⟩
        rw [answersTo_cons, hanswers i, callAll]
        by_cases hk : k = i
        · subst hk
          simp [Op.callOf]
        · simp [Op.callOf, hk, part_cons_other hk]

variable {st₀ : τ} {streams : S → List (Request functions)}
    {acts : List (Event S (Bytes × Callee τ))}
variable {s : State HproseHead (Functions τ × τ) StdException S}
variable {log : List (Op S HproseHead (Bytes × Callee τ))}
variable {answers : List (Op S HproseHead (Bytes × Callee τ) × Bytes)}

/-- Every connection has brought the front of its client's stream, cut anyhow. -/
def Brought (streams : S → List (Request functions)) (acts : List (Event S (Bytes × Callee τ))) :
    Prop :=
  ∀ i, ∃ later, (chunksOf i acts).flatten ++ later =
    stream (fun r : Request functions => r.frame.encode) (streams i)

/-- All that the connections bring are calls of registered functions. -/
theorem brought_request (hb : Brought streams acts) {i : S} {x : HproseHead × Bytes}
    (hx : x ∈ ((requests HproseHead (hproseServer τ).sequential).feed [] (chunksOf i acts)).1) :
    ∃ r : Request functions, x = (r.head, r.body) := by
  obtain ⟨later, hlater⟩ := hb i
  rw [feed_calls hlater] at hx
  obtain ⟨r, -, hr⟩ := List.mem_map.mp hx
  exact ⟨r, hr.symm⟩

theorem service_eq {header : HproseHead} {service : IService (Functions τ × τ) StdException}
    (h : service ∈ (hproseServer τ).services (IHeader.getService header)) :
    service = hproseService τ :=
  (Option.some.inj h).symm

/-- The handlers of what is brought act in one section each, and none of them throws. -/
theorem brought_atomic (st₀ : τ) (hb : Brought streams acts) :
    Atomic (hproseServer τ) register (fun st later => Extends st.1 later.1)
      (functions, st₀) HproseHead acts where
  refl := fun _ _ _ h => h
  trans := fun _ _ _ hfirst hthen method callee h => hthen method callee (hfirst method callee h)
  change := fun entry _ _ _ h => register_keeps h entry
  call := by
    intro i x hx service hservice
    obtain ⟨r, rfl⟩ := brought_request hb hx
    rw [service_eq hservice]
    exact acts_request r st₀

theorem brought_unthrown (st₀ : τ) (hb : Brought streams acts) :
    Unthrown (hproseServer τ) (fun st later => Extends st.1 later.1)
      (functions, st₀) HproseHead acts := by
  intro i x hx service hservice later hlater e
  obtain ⟨r, rfl⟩ := brought_request hb hx
  rw [service_eq hservice]
  have hcall := outcome_request r (hlater r.method r.callee r.entry) later.2
  intro hthrown
  cases hcall.symm.trans hthrown

/-- The order in which the calls of the log ran. -/
theorem order_exists (hl : Linear (hproseServer τ) register (functions, st₀) acts s log answers)
    (hb : Brought streams acts) :
    ∃ order : List (S × Request functions),
      order.map (fun p => (p.1, p.2.head, p.2.body)) = log.filterMap callOf ∧
      ∀ i, part i order <+: streams i := by
  refine merge_of_prefix (f := fun r : Request functions => (r.head, r.body)) fun i => ?_
  obtain ⟨later, hlater⟩ := hb i
  have hkept := hl.kept i
  rw [feed_calls hlater] at hkept
  rw [part_calls]
  exact hkept.trans ((arrivedCalls_first _ _).map _)

/-- A connection whose loop has ended has had all calls served that have arrived. -/
theorem served_arrived (hl : Linear (hproseServer τ) register (functions, st₀) acts s log answers)
    (hb : Brought streams acts) {order : List (S × Request functions)}
    (hcalls : order.map (fun p => (p.1, p.2.head, p.2.body)) = log.filterMap callOf)
    {i : S} (hfront : part i order <+: streams i) (hloop : (s.sessions i).loop = none)
    (hrunning : (s.sessions i).running = none) :
    part i order = arrivedCalls (streams i) (chunksOf i acts).flatten.length := by
  obtain ⟨later, hlater⟩ := hb i
  have hfeed := hl.served i hrunning
  have hpending : ((s.sessions i).pending HproseHead (hproseServer τ).sequential).1 = [] := by
    unfold Session.pending
    rw [hloop]
    split <;> rfl
  have hcount := congrArg (fun r => r.1.length) hfeed
  rw [feed_calls hlater, hpending] at hcount
  simp only [List.length_map, List.append_nil] at hcount
  have hpart : (part i order).length = (callsOf i log).length := by
    rw [← part_calls, ← hcalls, part_map (fun r : Request functions => (r.head, r.body)),
      List.length_map]
  obtain ⟨post, hpost⟩ := arrivedCalls_first (streams i) (chunksOf i acts).flatten.length
  obtain ⟨post', hpost'⟩ := hfront
  exact (List.append_inj (hpost'.trans hpost.symm) (hpart.trans hcount.symm)).1

/-- The calls ran in `order`, one at a time, and every client can read its own results. -/
structure RanIn (streams : S → List (Request functions))
    (acts : List (Event S (Bytes × Callee τ))) (st₀ : τ)
    (s : State HproseHead (Functions τ × τ) StdException S)
    (order : List (S × Request functions)) : Prop where
  state : s.st.2 = (callAll st₀ order).1
  kept : ∀ i, part i order <+: streams i
  served : ∀ i, (s.sessions i).loop = none → (s.sessions i).running = none →
    part i order = arrivedCalls (streams i) (chunksOf i acts).flatten.length
  read : ∀ i (chunks : List Bytes), chunks.flatten <+: (s.sessions i).sent → ∃ responses rest got,
    receiveAll HproseHead [] chunks = (responses, rest) ∧ got <+: part i (callAll st₀ order).2 ∧
      List.Forall₂ Delivers got responses ∧
      ((s.sessions i).running = none → chunks.flatten = (s.sessions i).sent →
        rest = [] ∧ got = part i (callAll st₀ order).2)

theorem ranIn (hl : Linear (hproseServer τ) register (functions, st₀) acts s log answers)
    (hb : Brought streams acts) :
    ∃ order : List (S × Request functions), RanIn streams acts st₀ s order := by
  obtain ⟨order, hcalls, hfront⟩ := order_exists hl hb
  obtain ⟨-, hst, hanswers⟩ := replay_order hcalls (fun _ _ he => he) hl.replay
  refine ⟨order, hst, hfront, fun i => served_arrived hl hb hcalls (hfront i), ?_⟩
  intro i chunks hchunks
  have hsent := hl.sent i
  rw [hanswers i] at hsent
  obtain ⟨responses, rest, got, hreceived, hgot, hdelivers, hall⟩ :=
    delivers_of_sent _ (hchunks.trans hsent)
  refine ⟨responses, rest, got, hreceived, hgot, hdelivers, ?_⟩
  intro hrunning hwhole
  apply hall
  rw [hwhole, hl.answered i hrunning, hanswers i]

end Order

section Samples

/-- Stores its argument and gives what was stored before. -/
def swap : Callee Bool := ⟨[.bool], one_arity _, .bool, fun args st => (st, args.1)⟩

def swaps : Functions Bool := (registerFunction ∅ (ascii "swap") swap).2

theorem swaps_swap : swaps[ascii "swap"]? = some swap := by
  simp [swaps, registerFunction]

def swapCall (value : Bool) : Request swaps where
  msgId := 1
  method := HproseService.ascii "swap"
  callee := swap
  args := (value, ())
  entry := swaps_swap
  ascii := all_ascii (by decide)
  methodShort := by decide
  argsPlain := by simp [swap, Plain]
  resultPlain := trivial
  argsShort := ⟨trivial, trivial⟩
  resultShort := fun _ => trivial
  fits := by cases value <;> decide
  replyFits := by intro st; cases st <;> cases value <;> decide

/-- Two clients; the call of the first is cut, and the other one looks its function up first and
runs it last. A function gets registered in between. -/
def swapRun : List (Event Bool (Bytes × Callee Bool)) :=
  [.receive true ((swapCall true).frame.encode.take 10),
    .receive false (swapCall false).frame.encode, .round true, .round false,
      .receive true ((swapCall true).frame.encode.drop 10), .work false, .round true,
    .work true, .change (HproseService.ascii "again", swap), .work true, .work false, .answer false,
    .answer true, .round true, .round false]

end Samples

end Ucorf.HproseSessions
