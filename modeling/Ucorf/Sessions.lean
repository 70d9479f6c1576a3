import Ucorf.Server
import Ucorf.Threads

/-!
# A server with many sessions

Every connection of the server runs `OnReceiveData` in a coroutine of its own. Here a
round of its loop runs the call at once, as if nobody else did anything meanwhile: the
server is then a sequential object, whose calls have one order, and each connection finds
its own requests in it, cut off its own bytes as if it were alone. Where the services keep
no state this is the server itself; handlers that overlap are compared with it.
-/
namespace Ucorf.Sessions

open Ucorf.Message
open Ucorf.Framing
open Ucorf.Threads

section Model

variable {σ ε : Type} {H : Type} [IHeader H]

/-- A service whose calls read and change what the process shares; `ε` is what a call may
throw. -/
structure IService (σ ε : Type) where
  name : Bytes
  callMethod : Bytes → Bytes → σ → Except ε (Option IMessage × σ)

structure ServerImpl (σ ε : Type) where
  services : Bytes → Option (IService σ ε)

/-- The bytes that `DispatchMsg` hands to `Send` for a response. -/
def reply (header : H) (response : IMessage) : Option Bytes :=
  if IHeader.getType header ≠ .onewayRequest then
    let header := IHeader.setFollowBytes (IHeader.setType header .response) response.byteSize
    let head := (IHeader.serialize header (IHeader.byteSize header)).getD
      (List.replicate (IHeader.byteSize header) 0)
    match response.serialize response.byteSize with
    | none => none
    | some body => some (head ++ body)
  else none

/-- The result of `DispatchMsg`, what it sent and what it left of the shared state. -/
def ServerImpl.dispatchMsg (s : ServerImpl σ ε) (header : H) (data : Bytes) (st : σ) :
    Except ε (Bool × Option Bytes × σ) :=
  match s.services (IHeader.getService header) with
  | none => .ok (false, none, st)
  | some service =>
    match service.callMethod (IHeader.getMethod header) data st with
    | .error e => .error e
    | .ok (none, st) => .ok (true, none, st)
    | .ok (some response, st) => .ok (true, reply header response, st)

/-- A connection: the bytes that the transport keeps, the data and the count of the
running `OnReceiveData`, and what was sent. A returned -1 closes it. -/
structure Session where
  tail : Bytes
  loop : Option (Bytes × Nat)
  sent : Bytes
  closed : Bool
  deriving DecidableEq, Repr

def Session.init : Session := ⟨[], none, [], false⟩

/-- What the shared state goes through: the calls, and changes by other parts of the program. -/
inductive Op (S H ω : Type) where
  | call : S → H → Bytes → Op S H ω
  | change : ω → Op S H ω

structure State (σ S H ω : Type) where
  st : σ
  sessions : S → Session
  log : List (Op S H ω)

inductive Event (S ω : Type) where
  | receive : S → Bytes → Event S ω -- the transport calls `OnReceiveData` with one more chunk
  | round : S → Event S ω
  | change : ω → Event S ω

variable {S ω : Type} [DecidableEq S]

def State.set (s : State σ S H ω) (i : S) (session : Session) : State σ S H ω :=
  { s with sessions := fun j => if j = i then session else s.sessions j }

omit [IHeader H] in
@[simp] theorem State.set_same (s : State σ S H ω) (i : S) (session : Session) :
    (s.set i session).sessions i = session := by
  simp [State.set]

omit [IHeader H] in
theorem State.set_other (s : State σ S H ω) {i j : S} (session : Session) (hne : j ≠ i) :
    (s.set i session).sessions j = s.sessions j := by
  simp [State.set, hne]

/-- `OnReceiveData` returns its count. -/
def Session.leave (session : Session) (data : Bytes) (consume : Nat) : Session :=
  { session with tail := data.drop consume, loop := none }

/-- `OnReceiveData` returns -1. -/
def Session.refuse (session : Session) : Session := { session with loop := none, closed := true }

def Session.goOn (session : Session) (data : Bytes) (consume : Nat) (sent : Option Bytes) :
    Session :=
  { session with loop := some (data, consume), sent := session.sent ++ sent.getD [] }

/-- A round that ran `DispatchMsg`. -/
def State.ran (s : State σ S H ω) (i : S) (session : Session) (header : H) (data : Bytes) (st : σ) :
    State σ S H ω :=
  ⟨st, (s.set i session).sessions, s.log ++ [.call i header data]⟩

/-- A server whose shared state others change with `apply`, each call in one step. A call that
throws ends the process, which takes no further step. -/
def step (server : ServerImpl σ ε) (apply : ω → σ → σ) (s : State σ S H ω) :
    Event S ω → Option (State σ S H ω)
  | .receive i chunk =>
    let session := s.sessions i
    if session.closed ∨ session.loop.isSome then none
    else some (s.set i { session with tail := [], loop := some (session.tail ++ chunk, 0) })
  | .round i =>
    let session := s.sessions i
    match session.loop with
    | none => none
    | some (data, consume) =>
      if consume < data.length then
        let buf := data.drop consume
        let len := data.length - consume
        let parsed := IHeader.parse (IHeader.factory : H) buf
        let headLen := parsed.1
        let header := parsed.2
        if headLen = 0 then some (s.set i (session.leave data consume))
        else
          let followBytes := IHeader.getFollowBytes header
          if headLen + followBytes > len then some (s.set i (session.leave data consume))
          else
            let body := slice buf headLen followBytes
            match server.dispatchMsg header body s.st with
            | .error _ => none
            | .ok (false, _, st) => some (s.ran i session.refuse header body st)
            | .ok (true, sent, st) =>
              some (s.ran i (session.goOn data (consume + (headLen + followBytes)) sent)
                header body st)
      else some (s.set i (session.leave data consume))
  | .change w => some { s with st := apply w s.st, log := s.log ++ [.change w] }

def start (st : σ) : State σ S H ω := ⟨st, fun _ => .init, []⟩

end Model

section Specification

variable {σ ε H S ω : Type} [IHeader H] [DecidableEq S]

/-- One operation of the sequential object, and the bytes that answer it. -/
def serve (server : ServerImpl σ ε) (apply : ω → σ → σ) (st : σ) : Op S H ω → Option (σ × Bytes)
  | .call _ header data =>
    match server.dispatchMsg header data st with
    | .error _ => none
    | .ok (_, sent, st) => some (st, sent.getD [])
  | .change w => some (apply w st, [])

/-- The operations one after the other, each with its answer. -/
def replay (server : ServerImpl σ ε) (apply : ω → σ → σ) :
    σ → List (Op S H ω) → Option (σ × List (Op S H ω × Bytes))
  | st, [] => some (st, [])
  | st, op :: ops =>
    (serve server apply st op).bind fun r => (replay server apply r.1 ops).map fun q =>
    (q.1, (op, r.2) :: q.2)

def Op.callOf (i : S) : Op S H ω → Option (H × Bytes)
  | .call j header data => if j = i then some (header, data) else none
  | .change _ => none

def Op.changeOf : Op S H ω → Option ω
  | .call _ _ _ => none
  | .change w => some w

/-- The requests of one connection, in the order of the log. -/
def callsOf (i : S) (log : List (Op S H ω)) : List (H × Bytes) := log.filterMap (Op.callOf i)

def changesOf (log : List (Op S H ω)) : List ω := log.filterMap Op.changeOf

/-- What the answers to one connection are together. -/
def answersTo (i : S) (answers : List (Op S H ω × Bytes)) : Bytes :=
  answers.flatMap fun a => if (a.1.callOf i).isSome then a.2 else []

def Event.chunkOf (i : S) : Event S ω → Option Bytes
  | .receive j chunk => if j = i then some chunk else none
  | _ => none

def Event.changeOf : Event S ω → Option ω
  | .change w => some w
  | _ => none

/-- What the network brought on one connection. -/
def chunksOf (i : S) (acts : List (Event S ω)) : List Bytes := acts.filterMap (Event.chunkOf i)

/-- The requests at the front of the bytes, one a step; an unknown service ends them. -/
def next (H : Type) [IHeader H] (server : ServerImpl σ ε) (buf : Bytes) : Outcome (H × Bytes) :=
  let parsed := IHeader.parse (IHeader.factory : H) buf
  if parsed.1 = 0 then .wait
  else if parsed.1 + IHeader.getFollowBytes parsed.2 > buf.length then .wait
  else
    let body := slice buf parsed.1 (IHeader.getFollowBytes parsed.2)
    if (server.services (IHeader.getService parsed.2)).isSome then
      .take (parsed.2, body) (parsed.1 + IHeader.getFollowBytes parsed.2)
    else .fail (parsed.2, body)

def requests (H : Type) [IHeader H] (server : ServerImpl σ ε) : Decoder UInt8 (H × Bytes) where
  next := next H server
  bounded := by
    intro b x n h
    simp only [next] at h
    split at h
    · cases h
    · split at h
      · cases h
      · split at h
        · cases h
          omega
        · cases h

end Specification

section Rounds

variable {σ ε H S ω : Type} [IHeader H] [DecidableEq S]
    {server : ServerImpl σ ε} {apply : ω → σ → σ}
variable {s s' : State σ S H ω} {i j : S}

theorem dispatchMsg_fst {header : H} {data : Bytes} {st st' : σ}
    {known : Bool} {sent : Option Bytes}
    (h : server.dispatchMsg header data st = .ok (known, sent, st')) :
    known = (server.services (IHeader.getService header)).isSome := by
  unfold ServerImpl.dispatchMsg at h
  cases hs : server.services (IHeader.getService header) with
  | none =>
    rw [hs] at h
    cases h
    rfl
  | some service =>
    rw [hs] at h
    dsimp only at h
    split at h <;> cases h <;> rfl

/-- Everything that a round can do. -/
theorem step_round (h : step server apply s (.round i) = some s') {data : Bytes} {consume : Nat}
    (hloop : (s.sessions i).loop = some (data, consume)) (hle : consume ≤ data.length) :
    (next H server (data.drop consume) = .wait ∧ s' = s.set i ((s.sessions i).leave data consume)) ∨
    (∃ header body sent st, next H server (data.drop consume) = .fail (header, body) ∧
      server.dispatchMsg header body s.st = .ok (false, sent, st) ∧
      s' = s.ran i (s.sessions i).refuse header body st) ∨
    (∃ header body n sent st, next H server (data.drop consume) = .take (header, body) n ∧
      server.dispatchMsg header body s.st = .ok (true, sent, st) ∧
      s' = s.ran i ((s.sessions i).goOn data (consume + n) sent) header body st) := by
  simp only [step, hloop] at h
  simp only [next, List.length_drop]
  generalize IHeader.parse (IHeader.factory : H) (data.drop consume) = parsed at h ⊢
  by_cases hmore : consume < data.length
  · rw [if_pos hmore] at h
    by_cases hhead : parsed.1 = 0
    · rw [if_pos hhead] at h ⊢
      exact .inl ⟨rfl, (Option.some.inj h).symm⟩
    · rw [if_neg hhead] at h ⊢
      by_cases hlen : parsed.1 + IHeader.getFollowBytes parsed.2 > data.length - consume
      · rw [if_pos hlen] at h ⊢
        exact .inl ⟨rfl, (Option.some.inj h).symm⟩
      · rw [if_neg hlen] at h ⊢
        split at h
        · cases h
        · rename_i sent st hd
          rw [← dispatchMsg_fst hd]
          exact .inr (.inl ⟨_, _, sent, st, rfl, hd, (Option.some.inj h).symm⟩)
        · rename_i sent st hd
          rw [← dispatchMsg_fst hd]
          exact .inr (.inr ⟨_, _, _, sent, st, rfl, hd, (Option.some.inj h).symm⟩)
  · -- nothing is left, and no header is that short
    rw [if_neg hmore] at h
    refine .inl ⟨?_, (Option.some.inj h).symm⟩
    by_cases hhead : parsed.1 = 0
    · rw [if_pos hhead]
    · rw [if_neg hhead, if_pos (by omega)]

/-- Everything that the arrival of a chunk can do. -/
theorem step_receive {chunk : Bytes} (h : step server apply s (.receive i chunk) = some s') :
    (s.sessions i).closed = false ∧ (s.sessions i).loop = none ∧
      s' = s.set i
        { s.sessions i with tail := [], loop := some ((s.sessions i).tail ++ chunk, 0) } := by
  simp only [step] at h
  split at h
  · cases h
  · rename_i hidle
    rw [not_or] at hidle
    obtain ⟨hclosed, hloop⟩ := hidle
    refine ⟨by simpa using hclosed, by simpa using hloop, (Option.some.inj h).symm⟩

end Rounds

section Invariants

variable {σ ε H S ω : Type} [IHeader H] [DecidableEq S]
    {server : ServerImpl σ ε} {apply : ω → σ → σ}

/-- The requests among the bytes that a session still has to look at. -/
def Session.pending (H : Type) [IHeader H] (server : ServerImpl σ ε) (session : Session) :
    List (H × Bytes) × Option Bytes :=
  if session.closed then ([], none)
  else
    match session.loop with
    | none => ([], some session.tail)
    | some (data, consume) => (requests H server).drain (data.drop consume)

/-- What was run for a connection and what it still has to look at are what its bytes hold. -/
structure Cut (server : ServerImpl σ ε) (acts : List (Event S ω))
    (s : State σ S H ω) (i : S) : Prop where
  within : ∀ data consume, (s.sessions i).loop = some (data, consume) → consume ≤ data.length
  idle : (s.sessions i).closed = true → (s.sessions i).loop = none
  feed : (requests H server).feed [] (chunksOf i acts) =
    (callsOf i s.log ++ ((s.sessions i).pending H server).1, ((s.sessions i).pending H server).2)

omit [IHeader H] in
@[simp] theorem callsOf_cons (i : S) (op : Op S H ω) (log : List (Op S H ω)) :
    callsOf i (op :: log) = (op.callOf i).toList ++ callsOf i log := by
  cases h : op.callOf i <;> simp [callsOf, h]

omit [IHeader H] in
@[simp] theorem callsOf_snoc (i : S) (log : List (Op S H ω)) (op : Op S H ω) :
    callsOf i (log ++ [op]) = callsOf i log ++ (op.callOf i).toList := by
  cases h : op.callOf i <;> simp [callsOf, h]

omit [IHeader H] [DecidableEq S] in
@[simp] theorem changesOf_snoc (log : List (Op S H ω)) (op : Op S H ω) :
    changesOf (log ++ [op]) = changesOf log ++ op.changeOf.toList := by
  cases h : op.changeOf <;> simp [changesOf, h]

omit [IHeader H] in
@[simp] theorem chunksOf_snoc (i : S) (acts : List (Event S ω)) (a : Event S ω) :
    chunksOf i (acts ++ [a]) = chunksOf i acts ++ (a.chunkOf i).toList := by
  cases h : a.chunkOf i <;> simp [chunksOf, h]

/-- A step leaves alone the connections that it is not about. -/
theorem Cut.other {acts : List (Event S ω)} {s s' : State σ S H ω} {i : S} {a : Event S ω}
    (hc : Cut server acts s i) (hsession : s'.sessions i = s.sessions i)
    (hlog : callsOf i s'.log = callsOf i s.log) (hchunk : a.chunkOf i = none) :
    Cut server (acts ++ [a]) s' i := by
  constructor
  · rw [hsession]
    exact hc.within
  · rw [hsession]
    exact hc.idle
  · rw [chunksOf_snoc, hchunk, hsession, hlog]
    simpa using hc.feed

/-- A round happens in a running loop whose count is within its data. -/
theorem Cut.round {acts : List (Event S ω)} {s s' : State σ S H ω}
    {i : S} (hc : Cut server acts s i) (h : step server apply s (.round i) = some s') :
    ∃ data consume, (s.sessions i).loop = some (data, consume) ∧ consume ≤ data.length ∧
      ((next H server (data.drop consume) = .wait ∧
        s' = s.set i ((s.sessions i).leave data consume)) ∨
      (∃ header body sent st, next H server (data.drop consume) = .fail (header, body) ∧
        server.dispatchMsg header body s.st = .ok (false, sent, st) ∧
        s' = s.ran i (s.sessions i).refuse header body st) ∨
      (∃ header body n sent st, next H server (data.drop consume) = .take (header, body) n ∧
        server.dispatchMsg header body s.st = .ok (true, sent, st) ∧
        s' = s.ran i ((s.sessions i).goOn data (consume + n) sent) header body st)) := by
  cases hloop : (s.sessions i).loop with
  | none => simp [step, hloop] at h
  | some p =>
    have hle := hc.within p.1 p.2 hloop
    exact ⟨p.1, p.2, rfl, hle, step_round h hloop hle⟩

/-- A connection whose loop has ended has looked at everything. -/
theorem Cut.idle_feed {acts : List (Event S ω)} {s : State σ S H ω}
    {i : S} (hc : Cut server acts s i)
    (hloop : (s.sessions i).loop = none) : (requests H server).feed [] (chunksOf i acts) =
      (callsOf i s.log, if (s.sessions i).closed then none else some (s.sessions i).tail) := by
  rw [hc.feed]
  cases hclosed : (s.sessions i).closed <;> simp [Session.pending, hclosed, hloop]

/-- A request that a running loop takes is one of those that the bytes hold. -/
theorem Cut.mem_feed {acts : List (Event S ω)} {s : State σ S H ω}
    {i : S} (hc : Cut server acts s i)
    {data : Bytes} {consume : Nat} (hloop : (s.sessions i).loop = some (data, consume))
    {x : H × Bytes} {n : Nat} (hnext : next H server (data.drop consume) = .take x n) :
    x ∈ ((requests H server).feed [] (chunksOf i acts)).1 := by
  have hopen : (s.sessions i).closed = false := by
    by_contra hne
    rw [hc.idle (by simpa using hne)] at hloop
    cases hloop
  rw [hc.feed]
  refine List.mem_append_right _ ?_
  simp only [Session.pending, hopen, hloop, Bool.false_eq_true, if_false]
  rw [Decoder.drain_take (D := requests H server) hnext]
  exact List.mem_cons_self

theorem cut_receive {acts : List (Event S ω)} {s s' : State σ S H ω} {i : S} {chunk : Bytes}
    (hc : Cut server acts s i) (h : step server apply s (.receive i chunk) = some s') :
    Cut server (acts ++ [.receive i chunk]) s' i := by
  obtain ⟨hclosed, hloop, rfl⟩ := step_receive h
  have hfeed := hc.feed
  simp only [Session.pending, hclosed, hloop, Bool.false_eq_true,
    if_false, List.append_nil] at hfeed
  constructor
  · intro data consume hnew
    rw [State.set_same] at hnew
    cases hnew
    exact Nat.zero_le _
  · intro hnew
    rw [State.set_same] at hnew
    exact absurd hnew (by simp [hclosed])
  · rw [chunksOf_snoc, State.set_same]
    simp only [Event.chunkOf, if_true, Option.toList_some, Session.pending, hclosed,
      Bool.false_eq_true, if_false, List.drop_zero]
    exact Decoder.feed_snoc hfeed

theorem cut_round {acts : List (Event S ω)} {s s' : State σ S H ω} {i : S}
    (hc : Cut server acts s i) (h : step server apply s (.round i) = some s') :
    Cut server (acts ++ [.round i]) s' i := by
  obtain ⟨data, consume, hloop, hle, hcases⟩ := hc.round h
  have hopen : (s.sessions i).closed = false := by
    by_contra hne
    rw [hc.idle (by simpa using hne)] at hloop
    cases hloop
  have hfeed := hc.feed
  simp only [Session.pending, hopen, hloop, Bool.false_eq_true, if_false] at hfeed
  have hchunks : chunksOf i (acts ++ [.round i]) = chunksOf i acts := by simp [Event.chunkOf]
  rcases hcases with ⟨hnext, rfl⟩ | ⟨header, body, sent, st, hnext, -, rfl⟩ |
    ⟨header, body, n, sent, st, hnext, -, rfl⟩
  · rw [Decoder.drain_wait (D := requests H server) hnext] at hfeed
    constructor
    · simp [Session.leave]
    · simp [Session.leave]
    · rw [hchunks, hfeed, State.set_same]
      simp [Session.pending, Session.leave, hopen, State.set]
  · rw [Decoder.drain_fail (D := requests H server) hnext] at hfeed
    constructor
    · simp [State.ran, Session.refuse]
    · simp [State.ran, Session.refuse]
    · rw [hchunks, hfeed]
      simp [State.ran, Session.pending, Session.refuse, Op.callOf]
  · obtain ⟨-, hn⟩ := (requests H server).bounded (b := data.drop consume) hnext
    rw [List.length_drop] at hn
    rw [Decoder.drain_take (D := requests H server) hnext, List.drop_drop] at hfeed
    constructor
    · intro data' consume' hnew
      simp only [State.ran, State.set_same, Session.goOn, Option.some.injEq, Prod.mk.injEq] at hnew
      obtain ⟨rfl, rfl⟩ := hnew
      omega
    · simp [State.ran, Session.goOn, hopen]
    · rw [hchunks, hfeed]
      simp [State.ran, Session.pending, Session.goOn, Op.callOf, hopen]

/-- The connection that a chunk or a round belongs to. -/
def Event.session : Event S ω → Option S
  | .receive i _ => some i
  | .round i => some i
  | .change _ => none

theorem step_other {acts : List (Event S ω)} {s s' : State σ S H ω} {i j : S} {a : Event S ω}
    (hne : i ≠ j) (ha : a.session = some j) (hc : Cut server acts s j)
    (h : step server apply s a = some s') :
    s'.sessions i = s.sessions i ∧ callsOf i s'.log = callsOf i s.log := by
  cases a with
  | change w => cases ha
  | receive k chunk =>
    cases ha
    obtain ⟨-, -, rfl⟩ := step_receive h
    exact ⟨s.set_other _ hne, rfl⟩
  | round k =>
    cases ha
    obtain ⟨data, consume, -, -, ⟨-, rfl⟩ | ⟨_, _, _, _, -, -, rfl⟩ | ⟨_, _, _, _, _, -, -, rfl⟩⟩ :=
      hc.round h
    · exact ⟨s.set_other _ hne, rfl⟩
    · exact ⟨s.set_other _ hne, by simp [State.ran, Op.callOf, hne.symm]⟩
    · exact ⟨s.set_other _ hne, by simp [State.ran, Op.callOf, hne.symm]⟩

theorem cut_step {acts : List (Event S ω)} {s s' : State σ S H ω} {a : Event S ω}
    (hc : ∀ i, Cut server acts s i) (h : step server apply s a = some s') (i : S) :
    Cut server (acts ++ [a]) s' i := by
  cases a with
  | change w =>
    cases h
    exact (hc i).other rfl (by simp [Op.callOf]) rfl
  | receive j chunk =>
    by_cases hij : i = j
    · subst hij
      exact cut_receive (hc i) h
    · obtain ⟨hsession, hlog⟩ := step_other hij rfl (hc j) h
      exact (hc i).other hsession hlog (by simp [Event.chunkOf, Ne.symm hij])
  | round j =>
    by_cases hij : i = j
    · subst hij
      exact cut_round (hc i) h
    · obtain ⟨hsession, hlog⟩ := step_other hij rfl (hc j) h
      exact (hc i).other hsession hlog rfl

/-- The requests of a connection are cut off its bytes as if it were alone. -/
theorem cuts {acts : List (Event S ω)} {st₀ : σ} {s : State σ S H ω}
    (h : run (step server apply) (start st₀) acts = some s) (i : S) : Cut server acts s i := by
  refine trace_invariant (I := fun acts s => ∀ i, Cut server acts s i) ?_ ?_ h i
  · intro i
    constructor
    · simp [start, Session.init]
    · simp [start, Session.init]
    · rfl
  · intro acts m a m' _ hm ha
    exact cut_step hm ha

end Invariants

section Replays

variable {σ ε H S ω : Type} [IHeader H] [DecidableEq S]
    {server : ServerImpl σ ε} {apply : ω → σ → σ}

omit [DecidableEq S] in
theorem replay_append (st : σ) (ops ops' : List (Op S H ω)) :
    replay server apply st (ops ++ ops') = (replay server apply st ops).bind fun r =>
      (replay server apply r.1 ops').map fun q => (q.1, r.2 ++ q.2) := by
  induction ops generalizing st with
  | nil => simp [replay]
  | cons op ops ih =>
    rw [List.cons_append, replay, replay]
    cases serve server apply st op with
    | none => rfl
    | some r =>
      simp only [Option.bind_some, ih]
      cases replay server apply r.1 ops with
      | none => rfl
      | some q => simp [Option.map_map, Function.comp_def]

omit [DecidableEq S] in
theorem replay_snoc {st st' st'' : σ} {ops : List (Op S H ω)} {op : Op S H ω}
    {answers : List (Op S H ω × Bytes)} {sent : Bytes}
    (h : replay server apply st ops = some (st', answers))
    (hserve : serve server apply st' op = some (st'', sent)) :
    replay server apply st (ops ++ [op]) = some (st'', answers ++ [(op, sent)]) := by
  rw [replay_append, h, Option.bind_some, replay, hserve]
  rfl

omit [IHeader H] in
@[simp] theorem answersTo_snoc (i : S) (answers : List (Op S H ω × Bytes))
    (op : Op S H ω) (sent : Bytes) : answersTo i (answers ++ [(op, sent)]) =
      answersTo i answers ++ if (op.callOf i).isSome then sent else [] := by
  simp [answersTo]

omit [IHeader H] in
@[simp] theorem answersTo_cons (i : S) (op : Op S H ω) (sent : Bytes)
    (answers : List (Op S H ω × Bytes)) : answersTo i ((op, sent) :: answers) =
      (if (op.callOf i).isSome then sent else []) ++ answersTo i answers := by
  simp [answersTo]

/-- The log explains the shared state and everything that was sent. -/
structure Replayed (server : ServerImpl σ ε) (apply : ω → σ → σ) (st₀ : σ) (s : State σ S H ω)
    (answers : List (Op S H ω × Bytes)) : Prop where
  replay : replay server apply st₀ s.log = some (s.st, answers)
  sent : ∀ i, (s.sessions i).sent = answersTo i answers

omit [DecidableEq S] in
theorem serve_call {i : S} {header : H} {data : Bytes} {st st' : σ}
    {known : Bool} {sent : Option Bytes}
    (h : server.dispatchMsg header data st = .ok (known, sent, st')) :
    serve server apply st (Op.call (ω := ω) i header data) = some (st', sent.getD []) := by
  simp only [serve, h]

/-- A round that ran `DispatchMsg` keeps the log right. -/
theorem Replayed.ran {st₀ : σ} {s : State σ S H ω} {answers : List (Op S H ω × Bytes)}
    (hr : Replayed server apply st₀ s answers) {i : S} {header : H}
    {data : Bytes} {st : σ} {known : Bool}
    {sent : Option Bytes} (hd : server.dispatchMsg header data s.st = .ok (known, sent, st))
    {session : Session} (hsent : session.sent = (s.sessions i).sent ++ sent.getD []) :
    Replayed server apply st₀ (s.ran i session header data st)
      (answers ++ [(.call i header data, sent.getD [])]) := by
  constructor
  · exact replay_snoc hr.replay (serve_call hd)
  · intro j
    rw [answersTo_snoc, ← hr.sent j]
    by_cases hj : j = i
    · subst hj
      simp [State.ran, Op.callOf, hsent]
    · simp [State.ran, State.set_other s session hj, Op.callOf, Ne.symm hj]

/-- Nothing but a round that ran `DispatchMsg` sends. -/
theorem Replayed.set {st₀ : σ} {s : State σ S H ω} {answers : List (Op S H ω × Bytes)}
    (hr : Replayed server apply st₀ s answers) {i : S} {session : Session}
    (hsent : session.sent = (s.sessions i).sent) :
    Replayed server apply st₀ (s.set i session) answers := by
  constructor
  · exact hr.replay
  · intro j
    rw [← hr.sent j]
    by_cases hj : j = i
    · subst hj
      rw [State.set_same, hsent]
    · rw [State.set_other s session hj]

/-- An unknown service is not answered. -/
theorem dispatchMsg_refused {header : H} {data : Bytes} {st st' : σ} {sent : Option Bytes}
    (h : server.dispatchMsg header data st = .ok (false, sent, st')) : sent = none ∧ st' = st := by
  unfold ServerImpl.dispatchMsg at h
  split at h
  · cases h
    exact ⟨rfl, rfl⟩
  · split at h <;> cases h

theorem replayed_step {st₀ : σ} {acts : List (Event S ω)} {s s' : State σ S H ω} {a : Event S ω}
    {answers : List (Op S H ω × Bytes)} (hc : ∀ i, Cut server acts s i)
    (hr : Replayed server apply st₀ s answers) (h : step server apply s a = some s') :
    ∃ answers, Replayed server apply st₀ s' answers := by
  cases a with
  | change w =>
    cases h
    refine ⟨answers ++ [(.change w, [])], replay_snoc hr.replay rfl, fun i => ?_⟩
    rw [answersTo_snoc]
    simpa [Op.callOf] using hr.sent i
  | receive i chunk =>
    obtain ⟨-, -, rfl⟩ := step_receive h
    exact ⟨answers, hr.set rfl⟩
  | round i =>
    obtain ⟨data, consume, -, -, ⟨-, rfl⟩ | ⟨header, body, sent, st, -, hd, rfl⟩ |
      ⟨header, body, n, sent, st, -, hd, rfl⟩⟩ := (hc i).round h
    · exact ⟨answers, hr.set rfl⟩
    · obtain ⟨rfl, -⟩ := dispatchMsg_refused hd
      exact ⟨_, hr.ran hd (by simp [Session.refuse])⟩
    · exact ⟨_, hr.ran hd rfl⟩

theorem replayed {acts : List (Event S ω)} {st₀ : σ} {s : State σ S H ω}
    (h : run (step server apply) (start st₀) acts = some s) :
    ∃ answers, Replayed server apply st₀ s answers := by
  refine trace_invariant (I := fun _ s => ∃ answers, Replayed server apply st₀ s answers) ?_ ?_ h
  · exact ⟨[], rfl, fun i => rfl⟩
  · rintro acts m a m' hm ⟨answers, hr⟩ ha
    exact replayed_step (cuts hm) hr ha

/-- What the rest of the program does to the shared state is in the log, in its order. -/
theorem changes_logged {acts : List (Event S ω)} {st₀ : σ} {s : State σ S H ω}
    (h : run (step server apply) (start st₀) acts = some s) :
    changesOf s.log = acts.filterMap Event.changeOf := by
  refine trace_invariant
    (I := fun acts s => changesOf s.log = acts.filterMap Event.changeOf) rfl ?_ h
  intro acts m a m' hm hlog ha
  rw [List.filterMap_append, ← hlog]
  cases a with
  | change w =>
    cases ha
    exact changesOf_snoc m.log (.change w)
  | receive i chunk =>
    obtain ⟨-, -, rfl⟩ := step_receive ha
    simp [State.set, Event.changeOf]
  | round i =>
    obtain ⟨data, consume, -, -, ⟨-, rfl⟩ | ⟨_, _, _, _, -, -, rfl⟩ | ⟨_, _, _, _, _, -, -, rfl⟩⟩ :=
      (cuts hm i).round ha
    · simp [State.set, Event.changeOf]
    · simp [State.ran, Event.changeOf, Op.changeOf]
    · simp [State.ran, Event.changeOf, Op.changeOf]

/-- The log only grows. -/
theorem log_run {acts acts' : List (Event S ω)} {st₀ : σ} {s s' : State σ S H ω}
    (h : run (step server apply) (start st₀) acts = some s)
    (h' : run (step server apply) (start st₀) (acts ++ acts') = some s') : s.log <+: s'.log := by
  induction acts' using List.reverseRecOn generalizing s' with
  | nil =>
    rw [List.append_nil, h] at h'
    cases h'
    exact List.prefix_rfl
  | append_singleton acts' a ih =>
    rw [← List.append_assoc] at h'
    obtain ⟨m, hm, ha⟩ := run_snoc h'
    refine (ih hm).trans ?_
    cases a with
    | change w =>
      cases ha
      exact List.prefix_append _ _
    | receive i chunk =>
      obtain ⟨-, -, rfl⟩ := step_receive ha
      exact List.prefix_rfl
    | round i =>
      obtain ⟨data, consume, -, -,
        ⟨-, rfl⟩ | ⟨_, _, _, _, -, -, rfl⟩ | ⟨_, _, _, _, _, -, -, rfl⟩⟩ :=
        (cuts hm i).round ha
      · exact List.prefix_rfl
      · exact List.prefix_append _ _
      · exact List.prefix_append _ _

end Replays

section Results

variable {σ ε H S ω : Type} [IHeader H] [DecidableEq S]
    {server : ServerImpl σ ε} {apply : ω → σ → σ}

/-- The log explains the state, what was sent and what each connection brought. -/
structure Sequential (server : ServerImpl σ ε) (apply : ω → σ → σ)
    (st₀ : σ) (acts : List (Event S ω)) (s : State σ S H ω) (answers : List (Op S H ω × Bytes)) :
    Prop extends Replayed server apply st₀ s answers where
  changes : changesOf s.log = acts.filterMap Event.changeOf
  kept : ∀ i, callsOf i s.log <+: ((requests H server).feed [] (chunksOf i acts)).1
  served : ∀ i, (s.sessions i).loop = none → (requests H server).feed [] (chunksOf i acts) =
    (callsOf i s.log, if (s.sessions i).closed then none else some (s.sessions i).tail)

/-- The log explains what the connections saw, and a connection whose loop has ended has had
all its requests served. -/
theorem sessions_sequential {acts : List (Event S ω)} {st₀ : σ} {s : State σ S H ω}
    (h : run (step server apply) (start st₀) acts = some s) :
    ∃ answers, Sequential server apply st₀ acts s answers := by
  obtain ⟨answers, hr⟩ := replayed h
  refine ⟨answers, hr, changes_logged h, fun i => ?_, fun i => (cuts h i).idle_feed⟩
  rw [(cuts h i).feed]
  exact List.prefix_append _ _

/-- How far the running loop of a session is from its end. -/
def Session.left (session : Session) : Nat :=
  match session.loop with
  | none => 0
  | some (data, consume) => data.length - consume + 1

theorem round_left {acts : List (Event S ω)} {s s' : State σ S H ω}
    {i : S} (hc : Cut server acts s i) (h : step server apply s (.round i) = some s') :
    (s'.sessions i).left < (s.sessions i).left := by
  obtain ⟨data, consume, hloop, hle, hcases⟩ := hc.round h
  have hleft : (s.sessions i).left = data.length - consume + 1 := by simp [Session.left, hloop]
  rw [hleft]
  rcases hcases with ⟨-, rfl⟩ | ⟨_, _, _, _, -, -, rfl⟩ | ⟨header, body, n, _, _, hnext, -, rfl⟩
  · simp [Session.left, Session.leave]
  · simp [State.ran, Session.left, Session.refuse]
  · obtain ⟨hpos, hn⟩ := (requests H server).bounded (b := data.drop consume) hnext
    rw [List.length_drop] at hn
    simp only [State.ran, State.set_same, Session.left, Session.goOn]
    omega

/-- A round is possible unless the call that it runs throws. -/
theorem round_enabled {s : State σ S H ω} {i : S} {data : Bytes} {consume : Nat}
    (hloop : (s.sessions i).loop = some (data, consume))
    (hcall : ∀ header body n, next H server (data.drop consume) = .take (header, body) n →
      ∃ r, server.dispatchMsg header body s.st = .ok r) :
    ∃ s', step server apply s (.round i) = some s' := by
  simp only [next, List.length_drop] at hcall
  simp only [step, hloop]
  generalize IHeader.parse (IHeader.factory : H) (data.drop consume) = parsed at hcall ⊢
  split
  · split
    · exact ⟨_, rfl⟩
    · rename_i hhead
      split
      · exact ⟨_, rfl⟩
      · rename_i hlen
        rw [if_neg hhead, if_neg hlen] at hcall
        cases hs : server.services (IHeader.getService parsed.2) with
        | none => simp [ServerImpl.dispatchMsg, hs]
        | some service =>
          rw [hs] at hcall
          obtain ⟨⟨known, sent, st⟩, hr⟩ := hcall _ _ _ rfl
          cases known <;> simp [hr]
  · exact ⟨_, rfl⟩

omit [IHeader H] in
@[simp] theorem chunksOf_rounds (i j : S) (acts : List (Event S ω)) (n : Nat) :
    chunksOf i (acts ++ List.replicate n (.round j)) = chunksOf i acts := by
  induction n with
  | zero => simp
  | succ n ih =>
    rw [List.replicate_succ', ← List.append_assoc, chunksOf_snoc, ih]; simp [Event.chunkOf]

/-- Where no call of the connection throws, its loop comes to an end by its own rounds. -/
theorem finishes {st₀ : σ} {i : S} {acts : List (Event S ω)} {s : State σ S H ω}
    (h : run (step server apply) (start st₀) acts = some s)
    (hcall : ∀ (n : Nat) (m : State σ S H ω),
      run (step server apply) (start st₀) (acts ++ List.replicate n (.round i)) = some m →
        ∀ data consume, (m.sessions i).loop = some (data, consume) → ∀ header body n,
          next H server (data.drop consume) = .take (header, body) n →
            ∃ r, server.dispatchMsg header body m.st = .ok r) :
    ∃ n t, run (step server apply) s (List.replicate n (.round i)) = some t ∧
    (t.sessions i).loop = none := by
  have hstep : ∀ m : State σ S H ω,
      (∃ n, run (step server apply) (start st₀) (acts ++ List.replicate n (.round i)) = some m) →
      ¬ (m.sessions i).loop = none → ∃ m', step server apply m (.round i) = some m' ∧
        (∃ n, run (step server apply) (start st₀) (acts ++ List.replicate n (.round i)) = some m') ∧
          (m'.sessions i).left < (m.sessions i).left := by
    rintro m ⟨n, hm⟩ hloop
    obtain ⟨⟨data, consume⟩, hloop⟩ := Option.ne_none_iff_exists'.mp hloop
    obtain ⟨m', hm'⟩ := round_enabled hloop (hcall n m hm data consume hloop)
    refine ⟨m', hm', ⟨n + 1, ?_⟩, round_left (cuts hm i) hm'⟩
    rw [List.replicate_succ', ← List.append_assoc]
    refine run_join hm ?_
    rw [run_cons, hm', Option.bind_some, run_nil]
  obtain ⟨n, t, hrun, -, hdone⟩ := run_until (Event.round i) hstep ⟨0, by simpa using h⟩
  exact ⟨n, t, hrun, hdone⟩

end Results

section Stateless

variable {H S ω : Type} [IHeader H] [DecidableEq S] {apply : ω → Unit → Unit}

/-- The services of the plain server share nothing and throw nothing. -/
def ofServer (s : Server.ServerImpl) : ServerImpl Unit Empty where
  services := fun n => (s.services n).map fun service =>
    ⟨service.name, fun method data _ => .ok (service.callMethod method data, ())⟩

theorem dispatchMsg_ofServer (s : Server.ServerImpl) (header : H) (data : Bytes) (st : Unit) :
    (ofServer s).dispatchMsg header data st =
      .ok ((s.dispatchMsg header data).1, (s.dispatchMsg header data).2, ()) := by
  simp only [ServerImpl.dispatchMsg, ofServer, Server.ServerImpl.dispatchMsg, reply]
  cases s.services (IHeader.getService header) with
  | none => rfl
  | some service =>
    simp only [Option.map_some]
    cases service.callMethod (IHeader.getMethod header) data with
    | none => rfl
    | some response =>
      dsimp only
      split
      · cases response.serialize response.byteSize <;> rfl
      · rfl

def dispatch (s : Server.ServerImpl) (x : H × Bytes) : Server.Dispatch H :=
  ⟨x.1, x.2, (s.dispatchMsg x.1 x.2).2⟩

theorem next_ofServer (s : Server.ServerImpl) (b : Bytes) :
    s.next H b = (next H (ofServer s) b).map (dispatch s) := by
  have hknown : ∀ header : H,
      (s.dispatchMsg header (slice b (IHeader.parse (IHeader.factory : H) b).1
        (IHeader.getFollowBytes (IHeader.parse (IHeader.factory : H) b).2))).1 =
        ((ofServer s).services (IHeader.getService header)).isSome := by
    intro header
    simp [Server.ServerImpl.dispatchMsg_fst, ofServer]
  simp only [Server.ServerImpl.next, next, hknown]
  split
  · rfl
  · split
    · rfl
    · split <;> rfl

/-- The requests that a connection of the plain server hands out, with their replies. -/
theorem receiveAll_eq (s : Server.ServerImpl) (chunks : List Bytes) :
    s.receiveAll H [] chunks = (((requests H (ofServer s)).feed [] chunks).1.map (dispatch s),
      ((requests H (ofServer s)).feed [] chunks).2) := by
  rw [Server.receiveAll_eq_feed]
  exact feed_map (D := requests H (ofServer s)) (E := s.decoder H) (next_ofServer s) [] chunks

theorem answersTo_replay {s : Server.ServerImpl} {i : S} {log : List (Op S H ω)} {st : Unit}
    {answers : List (Op S H ω × Bytes)}
    (h : replay (ofServer s) apply () log = some (st, answers)) :
    answersTo i answers = (callsOf i log).flatMap fun x => (dispatch s x).sent.getD [] := by
  induction log generalizing answers with
  | nil =>
    cases h
    rfl
  | cons op log ih =>
    rw [Sessions.replay, Option.bind_eq_some_iff] at h
    obtain ⟨⟨_, sent⟩, hserve, h⟩ := h
    rw [Option.map_eq_some_iff] at h
    obtain ⟨⟨_, rest⟩, hrest, h⟩ := h
    obtain ⟨-, rfl⟩ := Prod.mk.inj h
    rw [answersTo_cons, callsOf_cons, ih hrest, List.flatMap_append]
    cases op with
    | change w => simp [Op.callOf]
    | call j header data =>
      rw [serve_call (dispatchMsg_ofServer s header data ())] at hserve
      obtain ⟨-, rfl⟩ := Prod.mk.inj (Option.some.inj hserve)
      by_cases hj : j = i
      · simp [Op.callOf, hj, dispatch]
      · simp [Op.callOf, hj]

/-- A connection that no other one can hold up, and which is served as if it were alone. -/
structure Isolated (server : Server.ServerImpl) (apply : ω → Unit → Unit) (acts : List (Event S ω))
    (s : State Unit S H ω) (i : S) : Prop where
  finishes : ∃ n t, run (step (ofServer server) apply) s (List.replicate n (.round i)) = some t ∧
    (t.sessions i).loop = none
  received : (s.sessions i).loop = none → server.receiveAll H [] (chunksOf i acts) =
    ((callsOf i s.log).map (dispatch server),
      if (s.sessions i).closed then none else some (s.sessions i).tail)
  sent : (s.sessions i).loop = none →
    (s.sessions i).sent = (server.receiveAll H [] (chunksOf i acts)).1.flatMap fun c =>
    c.sent.getD []

/-- Where the services keep no state, each connection comes to the end of its loop by its own
rounds, and once it has, it was sent what the plain server sends to its bytes alone. -/
theorem sessions_isolated (server : Server.ServerImpl) {acts : List (Event S ω)}
    {s : State Unit S H ω}
    (h : run (step (ofServer server) apply) (start ()) acts = some s) (i : S) :
    Isolated server apply acts s i := by
  have hreceived : (s.sessions i).loop = none → server.receiveAll H [] (chunksOf i acts) =
      ((callsOf i s.log).map (dispatch server),
        if (s.sessions i).closed then none else some (s.sessions i).tail) := by
    intro hloop
    rw [receiveAll_eq, (cuts h i).idle_feed hloop]
  obtain ⟨answers, hreplay⟩ := replayed h
  refine ⟨Sessions.finishes h ?_, hreceived, fun hloop => ?_⟩
  · intro n m _ data consume _ header body n _
    exact ⟨_, dispatchMsg_ofServer server header body m.st⟩
  · rw [hreceived hloop, hreplay.sent i, answersTo_replay hreplay.replay, List.flatMap_map]

end Stateless

section Samples

/-- Answers with what it is sent. -/
def plain : Server.ServerImpl where
  services := fun n =>
    if n = [99] then some ⟨[99], fun _ data => some ⟨data.length, fun _ => some data⟩⟩ else none

def tallyCall (body : Bytes) : Bytes :=
    (⟨0, 7, UInt32.ofNat body.length, [99], []⟩ : UcorfHead).bytes ++ body

/-- Connection 0 brings a call in two chunks, connection 1 a call and one of an unknown service. -/
def tallyRun : List (Event Nat Empty) :=
  [.receive 0 ((tallyCall [1]).take 9),
    .receive 1 (tallyCall [2] ++ (⟨0, 7, 0, [], []⟩ : UcorfHead).bytes), .round 0, .round 1,
      .receive 0 ((tallyCall [1]).drop 9), .round 1, .round 0, .round 0]

def unchanged {σ : Type} : Empty → σ → σ := fun _ => id

theorem sessions_isolated_plain :
    ∃ s, run (step (H := UcorfHead) (ofServer plain) unchanged) (start ()) tallyRun = some s ∧
      Isolated plain unchanged tallyRun s 0 ∧ Isolated plain unchanged tallyRun s 1 := by
  obtain ⟨s, h, -⟩ := run_exists (step (H := UcorfHead) (ofServer plain) unchanged)
    (start ()) tallyRun
    (fun _ => true) (by decide +kernel)
  exact ⟨s, h, sessions_isolated plain h 0, sessions_isolated plain h 1⟩

end Samples

end Ucorf.Sessions
