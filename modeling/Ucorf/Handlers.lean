import Ucorf.Sessions

/-!
# Handlers that overlap

`CallMethod` runs in the coroutine of its connection, on whatever thread that is on, and
the server holds no lock around it. Between two sections of a handler on what the process
shares, chunks arrive and the handlers of other connections run. A handler may look at
the shared state as often as it likes: as long as it acts on it in one section, the server
is the sequential object whose calls are the acting sections, and the order of an earlier
moment is the front of the order of a later one.
-/
namespace Ucorf.Handlers

open Ucorf.Message
open Ucorf.Framing
open Ucorf.Threads
open Ucorf.Sessions hiding IService ServerImpl Session State Event step start chunksOf

section Model

variable {σ ε : Type} {H : Type} [IHeader H]

/-- The rest of a call: its result, what it throws, or its next section, which looks at the
shared state and changes it. -/
inductive Handler (σ ε : Type) where
  | returned : Option IMessage → Handler σ ε
  | threw : ε → Handler σ ε
  | work (next : σ → Handler σ ε) (effect : σ → σ) : Handler σ ε

/-- An exception that a call throws ends the process. -/
def Handler.alive : Handler σ ε → Option (Handler σ ε)
  | .threw _ => none
  | rest => some rest

/-- What the handler comes to when nobody else does anything. -/
def Handler.outcome : Handler σ ε → σ → Except ε (Option IMessage × σ)
  | .returned response, st => .ok (response, st)
  | .threw e, _ => .error e
  | .work next effect, st => (next st).outcome (effect st)

structure IService (σ ε : Type) where
  name : Bytes
  callMethod : Bytes → Bytes → Handler σ ε

structure ServerImpl (σ ε : Type) where
  services : Bytes → Option (IService σ ε)

/-- The handler of a request that `DispatchMsg` has looked the service up for. -/
structure Running (H σ ε : Type) where
  header : H
  length : Nat
  rest : Handler σ ε

/-- A connection, with the handler that its loop is in. -/
structure Session (H σ ε : Type) extends Sessions.Session where
  running : Option (Running H σ ε)

def Session.init : Session H σ ε := ⟨.init, none⟩

/-- The loop is in a handler. -/
def Session.enter (session : Session H σ ε) (running : Running H σ ε) : Session H σ ε :=
  { session with running := some running }

structure State (H σ ε S : Type) where
  st : σ
  sessions : S → Session H σ ε

inductive Event (S ω : Type) where
  | receive : S → Bytes → Event S ω -- the transport calls `OnReceiveData` with one more chunk
  | round : S → Event S ω
  | work : S → Event S ω
  | answer : S → Event S ω
  | change : ω → Event S ω

variable {S ω : Type} [DecidableEq S]

def State.set (s : State H σ ε S) (i : S) (session : Session H σ ε) : State H σ ε S :=
  { s with sessions := fun j => if j = i then session else s.sessions j }

/-- The events of the server: a round parses and starts a handler, `work` runs the next section
of a handler, and with its `answer` `DispatchMsg` sends the response and the loop goes on. -/
def step (server : ServerImpl σ ε) (apply : ω → σ → σ) (s : State H σ ε S) :
    Event S ω → Option (State H σ ε S)
  | .receive i chunk =>
    let session := s.sessions i
    if session.closed ∨ session.loop.isSome then none
    else some (s.set i { session with tail := [], loop := some (session.tail ++ chunk, 0) })
  | .round i =>
    let session := s.sessions i
    match session.loop, session.running with
    | some (data, consume), none =>
      if consume < data.length then
        let buf := data.drop consume
        let len := data.length - consume
        let parsed := IHeader.parse (IHeader.factory : H) buf
        let headLen := parsed.1
        let header := parsed.2
        if headLen = 0 then some (s.set i ⟨session.leave data consume, none⟩)
        else
          let followBytes := IHeader.getFollowBytes header
          if headLen + followBytes > len then some (s.set i ⟨session.leave data consume, none⟩)
          else
            match server.services (IHeader.getService header) with
            | none => some (s.set i ⟨session.refuse, none⟩)
            | some service =>
              let body := slice buf headLen followBytes
              (service.callMethod (IHeader.getMethod header) body).alive.map fun rest =>
                s.set i (session.enter ⟨header, headLen + followBytes, rest⟩)
      else some (s.set i ⟨session.leave data consume, none⟩)
    | _, _ => none
  | .work i =>
    match (s.sessions i).running with
    | some ⟨header, length, .work next effect⟩ =>
      (next s.st).alive.map fun rest =>
        { s.set i ((s.sessions i).enter ⟨header, length, rest⟩) with st := effect s.st }
    | _ => none
  | .answer i =>
    let session := s.sessions i
    match session.loop, session.running with
    | some (data, consume), some ⟨header, length, .returned response⟩ =>
      some (s.set i ⟨session.goOn data (consume + length) (response.bind (reply header)), none⟩)
    | _, _ => none
  | .change w => some { s with st := apply w s.st }

def start (st : σ) : State H σ ε S := ⟨st, fun _ => .init⟩

def Event.chunkOf (i : S) : Event S ω → Option Bytes
  | .receive j chunk => if j = i then some chunk else none
  | _ => none

def Event.changeOf : Event S ω → Option ω
  | .change w => some w
  | _ => none

/-- What the network brought on one connection. -/
def chunksOf (i : S) (acts : List (Event S ω)) : List Bytes := acts.filterMap (Event.chunkOf i)

end Model

section Specification

variable {σ ε H S ω : Type} [IHeader H] [DecidableEq S]

/-- Each call at once: the sequential object that the server is compared with. -/
def ServerImpl.sequential (server : ServerImpl σ ε) : Sessions.ServerImpl σ ε where
  services := fun n => (server.services n).map fun service =>
    ⟨service.name, fun method data st => (service.callMethod method data).outcome st⟩

/-- The rest of the handler leaves the shared state alone and gives the response. -/
def Settled (response : Option IMessage) : Handler σ ε → Prop
  | .returned response' => response' = response
  | .threw _ => False
  | .work next effect => ∀ st, effect st = st ∧ Settled response (next st)

/-- Whatever the shared state becomes from `st` on, by changes within `R`, the handler first
looks and then, in one section, acts on it as `f` does. -/
def Acts (R : σ → σ → Prop) (f : σ → Except ε (Option IMessage × σ)) : σ → Handler σ ε → Prop
  | st, .returned response => ∀ later, R st later → f later = .ok (response, later)
  | st, .threw e => ∀ later, R st later → f later = .error e
  | st, .work next effect => ∀ later, R st later →
    (∃ response, f later = .ok (response, effect later) ∧ R later (effect later) ∧
      Settled response (next later)) ∨
    (effect later = later ∧ Acts R f later (next later)) ∨
    ∃ e, f later = .error e ∧ next later = .threw e

/-- What others do to the shared state is within `R`, and each call that the connections bring
acts in one section as it would alone. -/
structure Atomic (server : ServerImpl σ ε) (apply : ω → σ → σ)
    (R : σ → σ → Prop) (st₀ : σ) (H : Type) [IHeader H] (acts : List (Event S ω)) : Prop where
  refl : ∀ st, R st st
  trans : ∀ st st' st'', R st st' → R st' st'' → R st st''
  change : ∀ w st, R st (apply w st)
  call : ∀ i, ∀ x ∈ ((requests H server.sequential).feed [] (chunksOf i acts)).1,
    ∀ service ∈ server.services (IHeader.getService x.1),
      Acts R (service.callMethod (IHeader.getMethod x.1) x.2).outcome st₀
        (service.callMethod (IHeader.getMethod x.1) x.2)

/-- The order `log` explains the shared state, what was sent and what each connection brought.
Where a connection is in no handler, the log has its calls up to there and it was sent all
their answers. -/
structure Linear (server : ServerImpl σ ε) (apply : ω → σ → σ) (st₀ : σ) (acts : List (Event S ω))
    (s : State H σ ε S) (log : List (Op S H ω)) (answers : List (Op S H ω × Bytes)) : Prop where
  replay : replay server.sequential apply st₀ log = some (s.st, answers)
  changes : changesOf log = acts.filterMap Event.changeOf
  kept : ∀ i, callsOf i log <+: ((requests H server.sequential).feed [] (chunksOf i acts)).1
  sent : ∀ i, (s.sessions i).sent <+: answersTo i answers
  answered : ∀ i, (s.sessions i).running = none → (s.sessions i).sent = answersTo i answers
  served : ∀ i, (s.sessions i).running = none →
    (requests H server.sequential).feed [] (chunksOf i acts) =
      (callsOf i log ++ ((s.sessions i).pending H server.sequential).1,
        ((s.sessions i).pending H server.sequential).2)

end Specification

section Steps

variable {σ ε H S ω : Type} [IHeader H] [DecidableEq S] {server : ServerImpl σ ε}
variable {apply : ω → σ → σ} {s s' : State H σ ε S} {i : S}

omit [IHeader H] in
@[simp] theorem State.set_same (s : State H σ ε S) (i : S) (session : Session H σ ε) :
    (s.set i session).sessions i = session := by
  simp [State.set]

omit [IHeader H] in
theorem State.set_other (s : State H σ ε S) {i j : S} (session : Session H σ ε) (hne : j ≠ i) :
    (s.set i session).sessions j = s.sessions j := by
  simp [State.set, hne]

omit [IHeader H] in
@[simp] theorem chunksOf_snoc (i : S) (acts : List (Event S ω)) (e : Event S ω) :
    chunksOf i (acts ++ [e]) = chunksOf i acts ++ (e.chunkOf i).toList := by
  cases h : e.chunkOf i <;> simp [chunksOf, h]

theorem alive_eq {rest rest' : Handler σ ε} (h : rest.alive = some rest') :
    rest' = rest ∧ ∀ e, rest ≠ .threw e := by
  cases rest with
  | threw e => cases h
  | _ =>
    cases h
    exact ⟨rfl, by simp⟩

theorem step_receive {chunk : Bytes} (h : step server apply s (.receive i chunk) = some s') :
    (s.sessions i).closed = false ∧ (s.sessions i).loop = none ∧
      s' = s.set i
        { s.sessions i with tail := [], loop := some ((s.sessions i).tail ++ chunk, 0) } := by
  simp only [step] at h
  split at h
  · cases h
  · rename_i hidle
    rw [not_or] at hidle
    obtain ⟨hclosed, hloop⟩ := hidle
    exact ⟨by simpa using hclosed, by simpa using hloop, (Option.some.inj h).symm⟩

omit [DecidableEq S] in
/-- A request that is taken has its service. -/
theorem service_of_next {buf : Bytes} {x : H × Bytes} {length : Nat}
    (h : next H server.sequential buf = .take x length) :
    ∃ service, server.services (IHeader.getService x.1) = some service := by
  simp only [next, ServerImpl.sequential, Option.isSome_map] at h
  split at h
  · cases h
  · split at h
    · cases h
    · split at h
      · rename_i hknown
        cases h
        exact Option.isSome_iff_exists.mp hknown
      · cases h

/-- What a round does, by what the loop finds at its place. -/
theorem step_next {data : Bytes} {consume : Nat}
    (hloop : (s.sessions i).loop = some (data, consume))
    (hrunning : (s.sessions i).running = none) (hle : consume ≤ data.length) :
    step server apply s (.round i) =
      match next H server.sequential (data.drop consume) with
      | .wait => some (s.set i ⟨(s.sessions i).leave data consume, none⟩)
      | .fail _ => some (s.set i ⟨(s.sessions i).refuse, none⟩)
      | .take x length => (server.services (IHeader.getService x.1)).bind fun service =>
        (service.callMethod (IHeader.getMethod x.1) x.2).alive.map fun rest =>
          s.set i ((s.sessions i).enter ⟨x.1, length, rest⟩) := by
  simp only [step, hloop, hrunning, next, List.length_drop, ServerImpl.sequential,
    Option.isSome_map]
  generalize IHeader.parse (IHeader.factory : H) (data.drop consume) = parsed
  by_cases hmore : consume < data.length
  · rw [if_pos hmore]
    by_cases hhead : parsed.1 = 0
    · rw [if_pos hhead, if_pos hhead]
    · rw [if_neg hhead, if_neg hhead]
      by_cases hlen : parsed.1 + IHeader.getFollowBytes parsed.2 > data.length - consume
      · rw [if_pos hlen, if_pos hlen]
      · rw [if_neg hlen, if_neg hlen]
        cases hservice : server.services (IHeader.getService parsed.2) with
        | none => rfl
        | some service => simp [hservice]
  · -- nothing is left, and no header is that short
    rw [if_neg hmore]
    by_cases hhead : parsed.1 = 0
    · rw [if_pos hhead]
    · rw [if_neg hhead, if_pos (by omega)]

/-- Everything that a round can do. -/
theorem step_round (h : step server apply s (.round i) = some s') :
    ∃ data consume, (s.sessions i).loop = some (data, consume) ∧ (s.sessions i).running = none ∧
      (consume ≤ data.length →
        (next H server.sequential (data.drop consume) = .wait ∧
          s' = s.set i ⟨(s.sessions i).leave data consume, none⟩) ∨
        (∃ header body, next H server.sequential (data.drop consume) = .fail (header, body) ∧
          s' = s.set i ⟨(s.sessions i).refuse, none⟩) ∨
        ∃ header body length service,
          next H server.sequential (data.drop consume) = .take (header, body) length ∧
          server.services (IHeader.getService header) = some service ∧
          s' = s.set i ((s.sessions i).enter
            ⟨header, length, service.callMethod (IHeader.getMethod header) body⟩)) := by
  have hwhere : ∃ data consume, (s.sessions i).loop = some (data, consume) ∧
      (s.sessions i).running = none := by
    simp only [step] at h
    split at h
    · rename_i data consume hloop hrunning
      exact ⟨data, consume, hloop, hrunning⟩
    · cases h
  obtain ⟨data, consume, hloop, hrunning⟩ := hwhere
  refine ⟨data, consume, hloop, hrunning, ?_⟩
  intro hle
  rw [step_next hloop hrunning hle] at h
  cases hnext : next H server.sequential (data.drop consume) with
  | wait =>
    rw [hnext] at h
    exact .inl ⟨rfl, (Option.some.inj h).symm⟩
  | fail x =>
    rw [hnext] at h
    exact .inr (.inl ⟨x.1, x.2, rfl, (Option.some.inj h).symm⟩)
  | take x length =>
    rw [hnext] at h
    obtain ⟨service, hservice, hcall⟩ := Option.bind_eq_some_iff.mp h
    obtain ⟨rest, hrest, hs'⟩ := Option.map_eq_some_iff.mp hcall
    obtain ⟨rfl, -⟩ := alive_eq hrest
    exact .inr (.inr ⟨x.1, x.2, length, service, rfl, hservice, hs'.symm⟩)

theorem step_work (h : step server apply s (.work i) = some s') :
    ∃ header length next effect, (s.sessions i).running = some ⟨header, length, .work next effect⟩ ∧
      (∀ e, next s.st ≠ .threw e) ∧
      s' = { s.set i ((s.sessions i).enter ⟨header, length, next s.st⟩) with
        st := effect s.st } := by
  simp only [step] at h
  split at h
  · rename_i header length next effect hrunning
    obtain ⟨rest, hrest, rfl⟩ := Option.map_eq_some_iff.mp h
    obtain ⟨rfl, halive⟩ := alive_eq hrest
    exact ⟨header, length, next, effect, hrunning, halive, rfl⟩
  · cases h

theorem step_answer (h : step server apply s (.answer i) = some s') :
    ∃ data consume header length response, (s.sessions i).loop = some (data, consume) ∧
      (s.sessions i).running = some ⟨header, length, .returned response⟩ ∧
      s' = s.set i
        ⟨(s.sessions i).goOn data (consume + length) (response.bind (reply header)), none⟩ := by
  simp only [step] at h
  split at h
  · rename_i data consume header length response hloop hrunning
    exact ⟨data, consume, header, length, response, hloop, hrunning, (Option.some.inj h).symm⟩
  · cases h

end Steps

section Simulation

variable {σ ε H S ω : Type} [IHeader H] [DecidableEq S] {server : ServerImpl σ ε}
variable {apply : ω → σ → σ} {R : σ → σ → Prop} {st₀ : σ}

/-- A connection, and how far the sequential server is with it: a handler that has not acted
is a round to come, and one that has is a round whose answer is sent ahead. -/
inductive Match (server : ServerImpl σ ε) (R : σ → σ → Prop) (st : σ) (session : Session H σ ε) :
    Sessions.Session → Prop where
  | idle (hrunning : session.running = none) : Match server R st session session.toSession
  | waiting {data : Bytes} {consume : Nat} {header : H} {body : Bytes} {length : Nat}
      {rest : Handler σ ε} {service : IService σ ε}
      (hloop : session.loop = some (data, consume))
      (hrunning : session.running = some ⟨header, length, rest⟩)
      (hnext : next H server.sequential (data.drop consume) = .take (header, body) length)
      (hservice : server.services (IHeader.getService header) = some service)
      (hacts : Acts R (service.callMethod (IHeader.getMethod header) body).outcome st rest) :
      Match server R st session session.toSession
  | acted {data : Bytes} {consume : Nat} {header : H} {length : Nat} {rest : Handler σ ε}
      {response : Option IMessage}
      (hloop : session.loop = some (data, consume))
      (hrunning : session.running = some ⟨header, length, rest⟩) (hpos : 0 < length)
      (hsettled : Settled response rest) :
      Match server R st session
        (session.toSession.goOn data (consume + length) (response.bind (reply header)))

/-- The sequential server after its events `sacts`, next to the one after `acts`. -/
structure Follows (server : ServerImpl σ ε) (apply : ω → σ → σ) (R : σ → σ → Prop) (st₀ : σ)
    (acts : List (Event S ω)) (s : State H σ ε S) (sacts : List (Sessions.Event S ω))
    (a : Sessions.State σ S H ω) : Prop where
  run : run (Sessions.step server.sequential apply) (Sessions.start st₀) sacts = some a
  chunks : ∀ i, Sessions.chunksOf i sacts = chunksOf i acts
  changes : sacts.filterMap Sessions.Event.changeOf = acts.filterMap Event.changeOf
  st : a.st = s.st
  since : R st₀ s.st
  sessions : ∀ i, Match server R s.st (s.sessions i) (a.sessions i)

theorem Acts.later {f : σ → Except ε (Option IMessage × σ)} {st later : σ} {rest : Handler σ ε}
    (htrans : ∀ st st' st'', R st st' → R st' st'' → R st st'') (hlater : R st later)
    (h : Acts R f st rest) : Acts R f later rest := by
  cases rest with
  | returned response =>
    intro st' hst'
    exact h st' (htrans _ _ _ hlater hst')
  | threw e =>
    intro st' hst'
    exact h st' (htrans _ _ _ hlater hst')
  | work next effect =>
    intro st' hst'
    exact h st' (htrans _ _ _ hlater hst')

/-- What others do keeps a connection where it is. -/
theorem Match.later {st later : σ} {session : Session H σ ε} {a : Sessions.Session}
    (htrans : ∀ st st' st'', R st st' → R st' st'' → R st st'') (hlater : R st later)
    (h : Match server R st session a) : Match server R later session a := by
  cases h with
  | idle hrunning => exact .idle hrunning
  | waiting hloop hrunning hnext hservice hacts =>
    exact .waiting hloop hrunning hnext hservice (hacts.later htrans hlater)
  | acted hloop hrunning hpos hsettled => exact .acted hloop hrunning hpos hsettled

theorem Match.of_idle {st : σ} {session : Session H σ ε} {a : Sessions.Session}
    (h : Match server R st session a) (hrunning : session.running = none) :
    a = session.toSession := by
  cases h with
  | idle => rfl
  | waiting _ hrunning' => cases hrunning.symm.trans hrunning'
  | acted _ hrunning' => cases hrunning.symm.trans hrunning'

variable {acts : List (Event S ω)} {s s' : State H σ ε S} {sacts : List (Sessions.Event S ω)}
variable {a a' : Sessions.State σ S H ω} {i : S} {e : Event S ω} {b : Sessions.Event S ω}

/-- The sequential server does nothing. -/
theorem Follows.wait (hf : Follows server apply R st₀ acts s sacts a)
    (hchunk : ∀ j, e.chunkOf j = none) (hchange : e.changeOf = none) (hst : s'.st = s.st)
    (hother : ∀ j, j ≠ i → s'.sessions j = s.sessions j)
    (hi : Match server R s.st (s'.sessions i) (a.sessions i)) :
    Follows server apply R st₀ (acts ++ [e]) s' sacts a where
  run := hf.run
  chunks j := by simp [hchunk j, hf.chunks j]
  changes := by simp [hchange, hf.changes]
  st := hf.st.trans hst.symm
  since := by
    rw [hst]
    exact hf.since
  sessions j := by
    rw [hst]
    by_cases hj : j = i
    · subst hj
      exact hi
    · rw [hother j hj]
      exact hf.sessions j

/-- The sequential server takes one step. -/
theorem Follows.step (hf : Follows server apply R st₀ acts s sacts a)
    (htrans : ∀ st st' st'', R st st' → R st' st'' → R st st'')
    (ha : Sessions.step server.sequential apply a b = some a')
    (hchunk : ∀ j, b.chunkOf j = e.chunkOf j) (hchange : b.changeOf = e.changeOf)
    (hst : a'.st = s'.st) (hr : R s.st s'.st)
    (hsessions : ∀ i, (s'.sessions i = s.sessions i ∧ a'.sessions i = a.sessions i) ∨
      Match server R s'.st (s'.sessions i) (a'.sessions i)) :
    Follows server apply R st₀ (acts ++ [e]) s' (sacts ++ [b]) a' where
  run := run_join hf.run (by rw [run_cons, ha, Option.bind_some, run_nil])
  chunks j := by rw [Sessions.chunksOf_snoc, chunksOf_snoc, hf.chunks j, hchunk j]
  changes := by
    rw [List.filterMap_append, List.filterMap_append, hf.changes]
    simp [List.filterMap_cons, hchange]
  st := hst
  since := htrans _ _ _ hf.since hr
  sessions j := by
    obtain ⟨hs, ha⟩ | hmatch := hsessions j
    · rw [hs, ha]
      exact (hf.sessions j).later htrans hr
    · exact hmatch

theorem Match.of_loop {st : σ} {session : Session H σ ε} {a : Sessions.Session}
    (h : Match server R st session a) (hloop : session.loop = none) :
    session.running = none ∧ a = session.toSession := by
  cases h with
  | idle hrunning => exact ⟨hrunning, rfl⟩
  | waiting hloop' => cases hloop.symm.trans hloop'
  | acted hloop' => cases hloop.symm.trans hloop'

/-- The sequential server has sent what the connection was sent, and maybe one answer more. -/
theorem Match.sent {st : σ} {session : Session H σ ε} {a : Sessions.Session}
    (h : Match server R st session a) : session.sent <+: a.sent := by
  cases h with
  | idle => exact List.prefix_rfl
  | waiting => exact List.prefix_rfl
  | acted => exact List.prefix_append _ _

theorem dispatchMsg_sequential {header : H} {body : Bytes} {service : IService σ ε} {st st' : σ}
    {response : Option IMessage}
    (hservice : server.services (IHeader.getService header) = some service)
    (h : (service.callMethod (IHeader.getMethod header) body).outcome st = .ok (response, st')) :
    server.sequential.dispatchMsg header body st =
      .ok (true, response.bind (reply header), st') := by
  simp only [Sessions.ServerImpl.dispatchMsg, ServerImpl.sequential, hservice, Option.map_some, h]
  cases response <;> rfl

section Rounds

variable {data : Bytes} {consume : Nat}

/-- A round of the sequential server that waits for more. -/
theorem round_leaves (hloop : (a.sessions i).loop = some (data, consume))
    (hle : consume ≤ data.length) (hnext : next H server.sequential (data.drop consume) = .wait) :
    Sessions.step server.sequential apply a (.round i) =
      some (a.set i ((a.sessions i).leave data consume)) := by
  have henabled : ∃ a', Sessions.step server.sequential apply a (.round i) = some a' :=
    round_enabled hloop (by simp [hnext])
  obtain ⟨a', ha⟩ := henabled
  obtain ⟨-, rfl⟩ | ⟨_, _, _, _, hnext', -⟩ | ⟨_, _, _, _, _, hnext', -⟩ :=
    Sessions.step_round ha hloop hle
  · exact ha
  · cases hnext.symm.trans hnext'
  · cases hnext.symm.trans hnext'

/-- A round of the sequential server that ends the connection. -/
theorem round_refuses (hloop : (a.sessions i).loop = some (data, consume))
    (hle : consume ≤ data.length) {header : H} {body : Bytes}
    (hnext : next H server.sequential (data.drop consume) = .fail (header, body)) :
    Sessions.step server.sequential apply a (.round i) =
      some (a.ran i (a.sessions i).refuse header body a.st) := by
  have henabled : ∃ a', Sessions.step server.sequential apply a (.round i) = some a' :=
    round_enabled hloop (by simp [hnext])
  obtain ⟨a', ha⟩ := henabled
  obtain ⟨hnext', -⟩ | ⟨_, _, _, _, hnext', hd, rfl⟩ | ⟨_, _, _, _, _, hnext', -⟩ :=
    Sessions.step_round ha hloop hle
  · cases hnext.symm.trans hnext'
  · cases hnext.symm.trans hnext'
    obtain ⟨-, rfl⟩ := dispatchMsg_refused hd
    exact ha
  · cases hnext.symm.trans hnext'

/-- A round of the sequential server that runs a call. -/
theorem round_runs (hloop : (a.sessions i).loop = some (data, consume))
    (hle : consume ≤ data.length)
    {header : H} {body : Bytes} {length : Nat} {service : IService σ ε}
    {response : Option IMessage} {st' : σ}
    (hnext : next H server.sequential (data.drop consume) = .take (header, body) length)
    (hservice : server.services (IHeader.getService header) = some service)
    (h : (service.callMethod (IHeader.getMethod header) body).outcome a.st = .ok (response, st')) :
    Sessions.step server.sequential apply a (.round i) =
      some (a.ran i ((a.sessions i).goOn data (consume + length) (response.bind (reply header)))
        header body st') := by
  have hd := dispatchMsg_sequential hservice h
  have henabled : ∃ a', Sessions.step server.sequential apply a (.round i) = some a' := by
    refine round_enabled hloop ?_
    intro header' body' length' hnext'
    cases hnext.symm.trans hnext'
    exact ⟨_, hd⟩
  obtain ⟨a', ha⟩ := henabled
  obtain ⟨hnext', -⟩ | ⟨_, _, _, _, hnext', -⟩ | ⟨_, _, _, _, _, hnext', hd', rfl⟩ :=
    Sessions.step_round ha hloop hle
  · cases hnext.symm.trans hnext'
  · cases hnext.symm.trans hnext'
  · cases hnext.symm.trans hnext'
    cases hd.symm.trans hd'
    exact ha

end Rounds

theorem follows_receive (hatomic : Atomic server apply R st₀ H acts)
    (hf : Follows server apply R st₀ acts s sacts a) {chunk : Bytes}
    (h : Handlers.step server apply s (.receive i chunk) = some s') :
    ∃ sacts' a', Follows server apply R st₀ (acts ++ [.receive i chunk])
      s' (sacts ++ sacts') a' := by
  obtain ⟨hclosed, hloop, rfl⟩ := step_receive h
  obtain ⟨hrunning, ha⟩ := (hf.sessions i).of_loop hloop
  have hstep : Sessions.step server.sequential apply a (.receive i chunk) = some (a.set i
      { a.sessions i with tail := [], loop := some ((a.sessions i).tail ++ chunk, 0) }) := by
    simp [Sessions.step, ha, hclosed, hloop]
  refine ⟨[.receive i chunk], _,
    hf.step hatomic.trans hstep (fun _ => rfl) rfl hf.st (hatomic.refl s.st) ?_⟩
  intro j
  by_cases hj : j = i
  · subst hj
    right
    rw [State.set_same, Sessions.State.set_same, ha]
    exact .idle hrunning
  · exact .inl ⟨s.set_other _ hj, a.set_other _ hj⟩

theorem follows_round (hatomic : Atomic server apply R st₀ H acts)
    (hf : Follows server apply R st₀ acts s sacts a)
    (h : Handlers.step server apply s (.round i) = some s') :
    ∃ sacts' a', Follows server apply R st₀ (acts ++ [.round i]) s' (sacts ++ sacts') a' := by
  obtain ⟨data, consume, hloop, hrunning, hcases⟩ := step_round h
  have ha := (hf.sessions i).of_idle hrunning
  have hcut := cuts hf.run i
  have hloop' : (a.sessions i).loop = some (data, consume) := by rw [ha, hloop]
  have hle := hcut.within data consume hloop'
  obtain ⟨hnext, rfl⟩ | ⟨header, body, hnext, rfl⟩ |
    ⟨header, body, length, service, hnext, hservice, rfl⟩ :=
    hcases hle
  · refine ⟨[.round i], _, hf.step hatomic.trans (round_leaves hloop' hle hnext)
      (fun _ => rfl) rfl hf.st
      (hatomic.refl s.st) ?_⟩
    intro j
    by_cases hj : j = i
    · subst hj
      right
      rw [State.set_same, Sessions.State.set_same, ha]
      exact .idle rfl
    · exact .inl ⟨s.set_other _ hj, a.set_other _ hj⟩
  · refine ⟨[.round i], _, hf.step hatomic.trans (round_refuses hloop' hle hnext)
      (fun _ => rfl) rfl hf.st
      (hatomic.refl s.st) ?_⟩
    intro j
    by_cases hj : j = i
    · subst hj
      right
      rw [State.set_same, Sessions.State.ran, Sessions.State.set_same, ha]
      exact .idle rfl
    · exact .inl ⟨s.set_other _ hj, a.set_other _ hj⟩
  · -- the handler starts, and the sequential server waits for its section
    have hmem := hcut.mem_feed hloop' hnext
    rw [hf.chunks i] at hmem
    have hacts := (hatomic.call i _ hmem service hservice).later hatomic.trans hf.since
    refine ⟨[], a, ?_⟩
    rw [List.append_nil]
    refine hf.wait (i := i) (fun _ => rfl) rfl rfl (fun j hj => s.set_other _ hj) ?_
    rw [State.set_same, ha]
    exact .waiting hloop rfl hnext hservice hacts

theorem follows_work (hatomic : Atomic server apply R st₀ H acts)
    (hf : Follows server apply R st₀ acts s sacts a)
    (h : Handlers.step server apply s (.work i) = some s') :
    ∃ sacts' a', Follows server apply R st₀ (acts ++ [.work i]) s' (sacts ++ sacts') a' := by
  obtain ⟨header, length, next, effect, hrunning, halive, rfl⟩ := step_work h
  generalize hsession : (s.sessions i).enter ⟨header, length, next s.st⟩ = session
  have hwait (heffect : effect s.st = s.st) (hi : Match server R s.st session (a.sessions i)) :
      Follows server apply R st₀ (acts ++ [.work i]) { s.set i session with st := effect s.st }
        sacts a := by
    refine hf.wait (i := i) (fun _ => rfl) rfl heffect (fun j hj => s.set_other _ hj) ?_
    rw [State.set_same]
    exact hi
  subst hsession
  have hmatch := hf.sessions i
  generalize hb : a.sessions i = b at hmatch
  cases hmatch with
  | idle hnone => cases hrunning.symm.trans hnone
  | @waiting data consume _ body _ _ service hloop hrunning' hnext hservice hacts =>
    cases hrunning.symm.trans hrunning'
    obtain ⟨response, hout, hwithin, hsettled⟩ | ⟨heffect, hacts'⟩ | ⟨e, -, hthrew⟩ :=
      hacts s.st (hatomic.refl s.st)
    · -- the section acts, and the sequential server runs the call
      have hloop' : (a.sessions i).loop = some (data, consume) := by rw [hb, hloop]
      have hround : Sessions.step server.sequential apply a (.round i) = _ :=
        round_runs hloop' ((cuts hf.run i).within _ _ hloop') hnext hservice
          (by rw [hf.st]; exact hout)
      refine ⟨[.round i], _, hf.step hatomic.trans hround (fun _ => rfl) rfl rfl hwithin ?_⟩
      intro j
      by_cases hj : j = i
      · subst hj
        right
        rw [State.set_same, Sessions.State.ran, Sessions.State.set_same, hb]
        obtain ⟨hpos, -⟩ := (requests H server.sequential).bounded hnext
        exact .acted hloop rfl hpos hsettled
      · exact .inl ⟨s.set_other _ hj, a.set_other _ hj⟩
    · refine ⟨[], a, ?_⟩
      rw [List.append_nil]
      refine hwait heffect ?_
      rw [hb]
      exact .waiting hloop rfl hnext hservice hacts'
    · exact absurd hthrew (halive e)
  | acted hloop hrunning' hpos hsettled =>
    cases hrunning.symm.trans hrunning'
    obtain ⟨heffect, hsettled'⟩ := hsettled s.st
    refine ⟨[], a, ?_⟩
    rw [List.append_nil]
    refine hwait heffect ?_
    rw [hb]
    exact .acted hloop rfl hpos hsettled'

theorem follows_answer (hatomic : Atomic server apply R st₀ H acts)
    (hf : Follows server apply R st₀ acts s sacts a)
    (h : Handlers.step server apply s (.answer i) = some s') :
    ∃ sacts' a', Follows server apply R st₀ (acts ++ [.answer i]) s' (sacts ++ sacts') a' := by
  obtain ⟨data, consume, header, length, response, hloop, hrunning, rfl⟩ := step_answer h
  have hmatch := hf.sessions i
  generalize hb : a.sessions i = b at hmatch
  cases hmatch with
  | idle hnone => cases hrunning.symm.trans hnone
  | waiting hloop' hrunning' hnext hservice hacts =>
    cases hrunning.symm.trans hrunning'
    cases hloop.symm.trans hloop'
    have hloop' : (a.sessions i).loop = some (data, consume) := by rw [hb, hloop]
    have hround : Sessions.step server.sequential apply a (.round i) = _ :=
      round_runs hloop' ((cuts hf.run i).within _ _ hloop') hnext hservice
        (by rw [hf.st]; exact hacts s.st (hatomic.refl s.st))
    refine ⟨[.round i], _,
      hf.step hatomic.trans hround (fun _ => rfl) rfl rfl (hatomic.refl s.st) ?_⟩
    intro j
    by_cases hj : j = i
    · subst hj
      right
      rw [State.set_same, Sessions.State.ran, Sessions.State.set_same, hb]
      exact .idle rfl
    · exact .inl ⟨s.set_other _ hj, a.set_other _ hj⟩
  | acted hloop' hrunning' hpos hsettled =>
    cases hrunning.symm.trans hrunning'
    cases hloop.symm.trans hloop'
    obtain rfl : response = _ := hsettled
    refine ⟨[], a, ?_⟩
    rw [List.append_nil]
    refine hf.wait (i := i) (fun _ => rfl) rfl rfl (fun j hj => s.set_other _ hj) ?_
    rw [State.set_same, hb]
    exact .idle rfl

theorem follows_change (hatomic : Atomic server apply R st₀ H acts)
    (hf : Follows server apply R st₀ acts s sacts a) (w : ω) :
    ∃ sacts' a', Follows server apply R st₀ (acts ++ [.change w]) { s with st := apply w s.st }
      (sacts ++ sacts') a' := by
  have hst : apply w a.st = apply w s.st := by rw [hf.st]
  exact ⟨[.change w], _, hf.step hatomic.trans rfl (fun _ => rfl) rfl hst (hatomic.change w s.st)
    fun _ => .inl ⟨rfl, rfl⟩⟩

/-- The sequential server keeps up with each event. -/
theorem follows_step (hatomic : Atomic server apply R st₀ H acts)
    (hf : Follows server apply R st₀ acts s sacts a)
    (h : Handlers.step server apply s e = some s') :
    ∃ sacts' a', Follows server apply R st₀ (acts ++ [e]) s' (sacts ++ sacts') a' := by
  cases e with
  | receive i chunk => exact follows_receive hatomic hf h
  | round i => exact follows_round hatomic hf h
  | work i => exact follows_work hatomic hf h
  | answer i => exact follows_answer hatomic hf h
  | change w =>
    cases h
    exact follows_change hatomic hf w

theorem Atomic.left {acts acts' : List (Event S ω)}
    (hatomic : Atomic server apply R st₀ H (acts ++ acts')) : Atomic server apply R st₀ H acts := by
  refine ⟨hatomic.refl, hatomic.trans, hatomic.change, ?_⟩
  intro i x hx
  refine hatomic.call i x ?_
  rw [chunksOf, List.filterMap_append]
  exact (Decoder.feed_prefix _ [] _ _).subset hx

theorem follows_run (hatomic : Atomic server apply R st₀ H acts)
    (h : run (Handlers.step server apply) (start st₀) acts = some s) :
    ∃ (sacts : List (Sessions.Event S ω)) (a : Sessions.State σ S H ω),
      Follows server apply R st₀ acts s sacts a ∧
      ∀ pre post (m : State H σ ε S), acts = pre ++ post →
        run (Handlers.step server apply) (start st₀) pre = some m → ∃ spre spost b,
          sacts = spre ++ spost ∧ Follows server apply R st₀ pre m spre b := by
  induction acts using List.reverseRecOn generalizing s with
  | nil =>
    cases h
    have hfirst : Follows server apply R st₀ ([] : List (Event S ω)) (start st₀ : State H σ ε S) []
        (Sessions.start st₀) :=
      ⟨rfl, fun _ => rfl, rfl, rfl, hatomic.refl st₀, fun _ => .idle rfl⟩
    refine ⟨[], _, hfirst, ?_⟩
    intro pre post m he hm
    obtain ⟨rfl, rfl⟩ := List.append_eq_nil_iff.mp he.symm
    cases hm
    exact ⟨[], [], _, rfl, hfirst⟩
  | append_singleton acts e ih =>
    obtain ⟨m, hm, he⟩ := run_snoc h
    obtain ⟨sacts, a, hf, hpre⟩ := ih hatomic.left hm
    obtain ⟨sacts', a', hf'⟩ := follows_step hatomic.left hf he
    refine ⟨sacts ++ sacts', a', hf', ?_⟩
    intro pre post k hsplit hk
    rcases List.eq_nil_or_concat post with rfl | ⟨post', e', rfl⟩
    · rw [List.append_nil] at hsplit
      subst hsplit
      cases h.symm.trans hk
      exact ⟨_, [], a', (List.append_nil _).symm, hf'⟩
    · rw [List.concat_eq_append, ← List.append_assoc] at hsplit
      obtain ⟨rfl, -⟩ := List.append_inj' hsplit rfl
      obtain ⟨spre, spost, b, rfl, hb⟩ := hpre pre post' k rfl hk
      exact ⟨spre, spost ++ sacts', b, List.append_assoc _ _ _, hb⟩

/-- What the sequential server did explains what the connections saw. -/
theorem Follows.linear (hf : Follows server apply R st₀ acts s sacts a) :
    ∃ answers, Linear server apply st₀ acts s a.log answers := by
  obtain ⟨answers, hs⟩ := sessions_sequential hf.run
  refine ⟨answers, ?_⟩
  constructor
  · rw [← hf.st]
    exact hs.replay
  · rw [hs.changes, hf.changes]
  · intro i
    rw [← hf.chunks i]
    exact hs.kept i
  · intro i
    rw [← hs.sent i]
    exact (hf.sessions i).sent
  · intro i hrunning
    rw [← hs.sent i, (hf.sessions i).of_idle hrunning]
  · intro i hrunning
    rw [← hf.chunks i, (cuts hf.run i).feed, (hf.sessions i).of_idle hrunning]

/-- Where every call acts in one section, the calls of overlapping handlers have one order in
which a sequential server gives the same shared state and the same answers, and the order of
an earlier moment is the front of it. -/
theorem handlers_sequential (hatomic : Atomic server apply R st₀ H acts)
    (h : run (Handlers.step server apply) (start st₀) acts = some s) :
    ∃ log answers, Linear server apply st₀ acts s log answers ∧
      ∀ pre post (m : State H σ ε S), acts = pre ++ post →
        run (Handlers.step server apply) (start st₀) pre = some m →
          ∃ log' answers', log' <+: log ∧ Linear server apply st₀ pre m log' answers' := by
  obtain ⟨sacts, a, hf, hpre⟩ := follows_run hatomic h
  obtain ⟨answers, hlinear⟩ := hf.linear
  refine ⟨a.log, answers, hlinear, ?_⟩
  intro pre post m hsplit hm
  obtain ⟨spre, spost, b, rfl, hb⟩ := hpre pre post m hsplit hm
  obtain ⟨answers', hlinear'⟩ := hb.linear
  exact ⟨b.log, answers', log_run hb.run hf.run, hlinear'⟩

end Simulation

section Termination

variable {σ ε H S ω : Type} [IHeader H] [DecidableEq S] {server : ServerImpl σ ε}
variable {apply : ω → σ → σ} {R : σ → σ → Prop} {st₀ : σ} {acts : List (Event S ω)}
variable {s t : State H σ ε S} {i : S}

/-- The events that a connection takes by itself. -/
def Event.own (i : S) : Event S ω → Bool
  | .round j | .work j | .answer j => j = i
  | .receive _ _ | .change _ => false

theorem chunksOf_own {evs : List (Event S ω)} (hown : ∀ e ∈ evs, e.own i = true) (j : S) :
    chunksOf j (acts ++ evs) = chunksOf j acts := by
  have hnone : evs.filterMap (Event.chunkOf j) = [] := by
    rw [List.filterMap_eq_nil_iff]
    intro e he
    cases e with
    | receive k chunk => cases hown _ he
    | _ => rfl
  rw [chunksOf, List.filterMap_append, hnone, List.append_nil]
  rfl

theorem Atomic.own {evs : List (Event S ω)} (hatomic : Atomic server apply R st₀ H acts)
    (hown : ∀ e ∈ evs, e.own i = true) : Atomic server apply R st₀ H (acts ++ evs) := by
  refine ⟨hatomic.refl, hatomic.trans, hatomic.change, ?_⟩
  intro j
  rw [chunksOf_own hown]
  exact hatomic.call j

/-- The handler of the connection runs to its end and the loop goes on behind its request. -/
structure Passes (server : ServerImpl σ ε) (apply : ω → σ → σ) (i : S)
    (data : Bytes) (consume : Nat) (s t : State H σ ε S) (evs : List (Event S ω)) : Prop where
  own : ∀ e ∈ evs, e.own i = true
  run : run (Handlers.step server apply) s evs = some t
  loop : (t.sessions i).loop = some (data, consume)
  running : (t.sessions i).running = none

theorem passes_work {data : Bytes} {consume length : Nat} {header : H} {next : σ → Handler σ ε}
    {effect : σ → σ} {evs : List (Event S ω)}
    (hrunning : (s.sessions i).running = some ⟨header, length, .work next effect⟩)
    (halive : ∀ e, next s.st ≠ .threw e)
    (h : Passes server apply i data consume
      { s.set i ((s.sessions i).enter ⟨header, length, next s.st⟩) with st := effect s.st } t evs) :
    Passes server apply i data consume s t (.work i :: evs) := by
  refine ⟨?_, ?_, h.loop, h.running⟩
  · intro e he
    obtain rfl | he := List.mem_cons.mp he
    · simp [Event.own]
    · exact h.own e he
  · have halive' : (next s.st).alive = some (next s.st) := by
      cases hnext : next s.st with
      | threw e => exact absurd hnext (halive e)
      | _ => rfl
    have hstep : Handlers.step server apply s (.work i) = some
        { s.set i ((s.sessions i).enter ⟨header, length, next s.st⟩) with st := effect s.st } := by
      simp only [Handlers.step, hrunning, halive', Option.map_some]
    rw [run_cons, hstep, Option.bind_some]
    exact h.run

theorem passes_answer {data : Bytes} {consume length : Nat} {header : H}
    {response : Option IMessage} (hloop : (s.sessions i).loop = some (data, consume))
    (hrunning : (s.sessions i).running = some ⟨header, length, .returned response⟩) :
    ∃ t, Passes server apply i data (consume + length) s t [Event.answer (ω := ω) i] := by
  refine ⟨s.set i
    ⟨(s.sessions i).goOn data (consume + length) (response.bind (reply header)), none⟩,
      ?_, ?_, ?_, ?_⟩
  · simp [Event.own]
  · simp only [run_cons, Handlers.step, hloop, hrunning, Option.bind_some, run_nil]
  · rw [State.set_same]
    rfl
  · rw [State.set_same]

/-- A handler that has acted runs to its end. -/
theorem passes_settled {data : Bytes} {consume length : Nat} {header : H}
    {response : Option IMessage}
    {rest : Handler σ ε} (hloop : (s.sessions i).loop = some (data, consume))
    (hrunning : (s.sessions i).running = some ⟨header, length, rest⟩)
    (hsettled : Settled response rest) : ∃ (t : State H σ ε S) (evs : List (Event S ω)),
      Passes server apply i data (consume + length) s t evs := by
  induction rest generalizing s with
  | returned response' =>
    obtain ⟨t, ht⟩ := passes_answer (ω := ω) hloop hrunning
    exact ⟨t, _, ht⟩
  | threw e => exact hsettled.elim
  | work next effect ih =>
    obtain ⟨-, hsettled'⟩ := hsettled s.st
    obtain ⟨t, evs, ht⟩ := ih s.st
      (s := { s.set i ((s.sessions i).enter ⟨header, length, next s.st⟩) with st := effect s.st })
      (by rw [State.set_same]; exact hloop) (by rw [State.set_same]; rfl) hsettled'
    refine ⟨t, _, passes_work hrunning ?_ ht⟩
    intro e he
    rw [he] at hsettled'
    exact hsettled'

/-- A handler whose call does not throw runs to its end. -/
theorem passes_acts {f : σ → Except ε (Option IMessage × σ)} (hrefl : ∀ st, R st st)
    (hok : ∀ later, R s.st later → ∀ e, f later ≠ .error e) {data : Bytes} {consume length : Nat}
    {header : H} {rest : Handler σ ε} (hloop : (s.sessions i).loop = some (data, consume))
    (hrunning : (s.sessions i).running = some ⟨header, length, rest⟩) (hacts : Acts R f s.st rest) :
    ∃ (t : State H σ ε S) (evs : List (Event S ω)),
      Passes server apply i data (consume + length) s t evs := by
  induction rest generalizing s with
  | returned response =>
    obtain ⟨t, ht⟩ := passes_answer (ω := ω) hloop hrunning
    exact ⟨t, _, ht⟩
  | threw e => exact absurd (hacts s.st (hrefl s.st)) (hok s.st (hrefl s.st) e)
  | work next effect ih =>
    have hloop' : (({ s.set i ((s.sessions i).enter ⟨header, length, next s.st⟩) with
        st := effect s.st } : State H σ ε S).sessions i).loop = some (data, consume) := by
      rw [State.set_same]
      exact hloop
    have hrunning' : (({ s.set i ((s.sessions i).enter ⟨header, length, next s.st⟩) with
        st := effect s.st } : State H σ ε S).sessions i).running =
          some ⟨header, length, next s.st⟩ := by
      rw [State.set_same]
      rfl
    obtain ⟨response, -, -, hsettled⟩ | ⟨heffect, hacts'⟩ | ⟨e, he, -⟩ := hacts s.st (hrefl s.st)
    · obtain ⟨t, evs, ht⟩ := passes_settled hloop' hrunning' hsettled
      refine ⟨t, _, passes_work hrunning ?_ ht⟩
      intro e he
      rw [he] at hsettled
      exact hsettled
    · obtain ⟨t, evs, ht⟩ := ih s.st (by rw [heffect]; exact hok) hloop' hrunning'
        (by rw [heffect]; exact hacts')
      refine ⟨t, _, passes_work hrunning ?_ ht⟩
      intro e he
      rw [he] at hacts'
      exact hok s.st (hrefl s.st) e (hacts' s.st (hrefl s.st))
    · exact absurd he (hok s.st (hrefl s.st) e)

/-- No call that the connections bring throws where the sequential server may run it. -/
def Unthrown (server : ServerImpl σ ε) (R : σ → σ → Prop) (st₀ : σ) (H : Type) [IHeader H]
    (acts : List (Event S ω)) : Prop :=
  ∀ i, ∀ x ∈ ((requests H server.sequential).feed [] (chunksOf i acts)).1,
    ∀ service ∈ server.services (IHeader.getService x.1), ∀ later, R st₀ later →
      ∀ e, (service.callMethod (IHeader.getMethod x.1) x.2).outcome later ≠ .error e

/-- A round starts the handler of a request that does not throw. -/
theorem round_starts {data : Bytes} {consume : Nat}
    (hloop : (s.sessions i).loop = some (data, consume)) (hrunning : (s.sessions i).running = none)
    (hle : consume ≤ data.length)
    (hcall : ∀ x length, next H server.sequential (data.drop consume) = .take x length →
      ∀ service ∈ server.services (IHeader.getService x.1),
        ∀ e, service.callMethod (IHeader.getMethod x.1) x.2 ≠ .threw e) :
    ∃ s', Handlers.step server apply s (.round i) = some s' := by
  rw [step_next hloop hrunning hle]
  cases hnext : next H server.sequential (data.drop consume) with
  | wait => exact ⟨_, rfl⟩
  | fail x => exact ⟨_, rfl⟩
  | take x length =>
    obtain ⟨service, hservice⟩ := service_of_next hnext
    dsimp only
    rw [hservice, Option.bind_some]
    cases hrest : service.callMethod (IHeader.getMethod x.1) x.2 with
    | threw e => exact absurd hrest (hcall x length hnext service hservice e)
    | _ => exact ⟨_, rfl⟩

/-- The running handler comes to its end, and the loop goes on with less to look at. -/
theorem handler_returns (hatomic : Atomic server apply R st₀ H acts)
    (hunthrown : Unthrown server R st₀ H acts)
    (h : run (Handlers.step server apply) (start st₀) acts = some s) {data : Bytes} {consume : Nat}
    {running : Running H σ ε} (hloop : (s.sessions i).loop = some (data, consume))
    (hrunning : (s.sessions i).running = some running) :
    ∃ (t : State H σ ε S) (evs : List (Event S ω)) (consume' : Nat),
      Passes server apply i data consume' s t evs ∧ consume < consume' ∧
      consume' ≤ data.length := by
  obtain ⟨sacts, a, hf, -⟩ := follows_run hatomic h
  have hcut := cuts hf.run i
  have hmatch := hf.sessions i
  generalize hb : a.sessions i = b at hmatch
  cases hmatch with
  | idle hnone => cases hrunning.symm.trans hnone
  | @waiting _ _ header body length rest service hloop' hrunning' hnext hservice hacts =>
    cases hloop.symm.trans hloop'
    have hmem := hcut.mem_feed (by rw [hb]; exact hloop) hnext
    rw [hf.chunks i] at hmem
    have hok : ∀ later, R s.st later →
        ∀ e, (service.callMethod (IHeader.getMethod header) body).outcome later ≠ .error e :=
      fun later hlater =>
        hunthrown i _ hmem service hservice later (hatomic.trans _ _ _ hf.since hlater)
    obtain ⟨t, evs, ht⟩ := passes_acts hatomic.refl hok hloop hrunning' hacts
    obtain ⟨hpos, hle⟩ := (requests H server.sequential).bounded hnext
    rw [List.length_drop] at hle
    exact ⟨t, evs, consume + length, ht, by omega, by omega⟩
  | @acted _ _ header length rest response hloop' hrunning' hpos hsettled =>
    cases hloop.symm.trans hloop'
    obtain ⟨t, evs, ht⟩ := passes_settled hloop hrunning' hsettled
    have hle := hcut.within data (consume + length) (by rw [hb]; rfl)
    exact ⟨t, evs, consume + length, ht, by omega, hle⟩

theorem Unthrown.own {evs : List (Event S ω)} (hunthrown : Unthrown server R st₀ H acts)
    (hown : ∀ e ∈ evs, e.own i = true) : Unthrown server R st₀ H (acts ++ evs) := by
  intro j
  rw [chunksOf_own hown]
  exact hunthrown j

/-- A running loop can end, or go on with less to look at. -/
theorem loop_advances (hatomic : Atomic server apply R st₀ H acts)
    (hunthrown : Unthrown server R st₀ H acts)
    (h : run (Handlers.step server apply) (start st₀) acts = some s) {data : Bytes} {consume : Nat}
    (hloop : (s.sessions i).loop = some (data, consume)) :
    ∃ (t : State H σ ε S) (evs : List (Event S ω)), (∀ e ∈ evs, e.own i = true) ∧
      run (Handlers.step server apply) s evs = some t ∧ ((t.sessions i).loop = none ∨
        ∃ consume', (t.sessions i).loop = some (data, consume') ∧ consume < consume' ∧
          consume' ≤ data.length) := by
  cases hrunning : (s.sessions i).running with
  | some running =>
    obtain ⟨t, evs, consume', ht, hlt, hle⟩ := handler_returns hatomic hunthrown h hloop hrunning
    exact ⟨t, evs, ht.own, ht.run, .inr ⟨consume', ht.loop, hlt, hle⟩⟩
  | none =>
    obtain ⟨sacts, a, hf, -⟩ := follows_run hatomic h
    have hcut := cuts hf.run i
    have hloop' : (a.sessions i).loop = some (data, consume) := by
      rw [(hf.sessions i).of_idle hrunning, hloop]
    have hstarts : ∃ s', Handlers.step server apply s (.round i) = some s' := by
      refine round_starts hloop hrunning (hcut.within data consume hloop') ?_
      intro x length hnext service hservice e hthrew
      have hmem := hcut.mem_feed hloop' hnext
      rw [hf.chunks i] at hmem
      refine hunthrown i _ hmem service hservice s.st hf.since e ?_
      rw [hthrew]
      rfl
    obtain ⟨s', hs'⟩ := hstarts
    have hround : run (Handlers.step server apply) s [.round i] = some s' := by
      rw [run_cons, hs', Option.bind_some, run_nil]
    have hown : ∀ e ∈ [Event.round (ω := ω) i], e.own i = true := by simp [Event.own]
    obtain ⟨data', consume', hsame, -, hcases⟩ := step_round hs'
    cases hloop.symm.trans hsame
    obtain ⟨-, rfl⟩ | ⟨_, _, -, rfl⟩ | ⟨header, body, length, service, -, -, rfl⟩ :=
      hcases (hcut.within data consume hloop')
    · exact ⟨_, _, hown, hround, .inl (by rw [State.set_same]; rfl)⟩
    · exact ⟨_, _, hown, hround, .inl (by rw [State.set_same]; rfl)⟩
    · obtain ⟨t, evs, consume', ht, hlt, hle⟩ :=
        handler_returns (hatomic.own hown) (hunthrown.own hown)
        (run_join h hround) (by rw [State.set_same]; exact hloop) (by rw [State.set_same]; rfl)
      refine ⟨t, .round i :: evs, ?_, run_join hround ht.run, .inr ⟨consume', ht.loop, hlt, hle⟩⟩
      intro e he
      obtain rfl | he := List.mem_cons.mp he
      · exact hown _ (List.mem_singleton_self _)
      · exact ht.own e he

/-- Where no call throws, every connection comes to the end of its loop by its own events. -/
theorem loop_ends (hatomic : Atomic server apply R st₀ H acts)
    (hunthrown : Unthrown server R st₀ H acts)
    (h : run (Handlers.step server apply) (start st₀) acts = some s) (i : S) :
    ∃ (t : State H σ ε S) (evs : List (Event S ω)), (∀ e ∈ evs, e.own i = true) ∧
      run (Handlers.step server apply) s evs = some t ∧ (t.sessions i).loop = none := by
  cases hloop : (s.sessions i).loop with
  | none => exact ⟨s, [], by simp, rfl, hloop⟩
  | some p =>
    obtain ⟨data, consume⟩ := p
    induction hn : data.length - consume using Nat.strongRecOn generalizing acts s consume with
    | _ n ih =>
      obtain ⟨t, evs, hown, ht, hend | ⟨consume', hgoes, hlt, hle⟩⟩ :=
        loop_advances hatomic hunthrown h hloop
      · exact ⟨t, evs, hown, ht, hend⟩
      · obtain ⟨u, evs', hown', hu, hend⟩ := ih (data.length - consume')
          (by omega) (hatomic.own hown)
          (hunthrown.own hown) (run_join h ht) consume' hgoes rfl
        refine ⟨u, evs ++ evs', ?_, run_join ht hu, hend⟩
        intro e he
        obtain he | he := List.mem_append.mp he
        · exact hown e he
        · exact hown' e he

end Termination

section Samples

/-- Looks at the number of calls, counts the call, looks once more, and answers with the number
that it counted from. -/
def tallyHandler : Handler Nat Empty :=
  .work
    (fun _ => .work
      (fun st => .work (fun _ => .returned (some ⟨1, fun _ => some [UInt8.ofNat st]⟩)) id)
      (· + 1))
    id

def tally : ServerImpl Nat Empty where
  services := fun n => if n = [99] then some ⟨[99], fun _ _ => tallyHandler⟩ else none

theorem tally_atomic (acts : List (Event Nat Empty)) :
    Atomic tally unchanged (fun _ _ => True) 0 UcorfHead acts where
  refl := fun _ => trivial
  trans := fun _ _ _ _ _ => trivial
  change := fun w => nomatch w
  call := by
    rintro i x - service hservice
    have hcall : service.callMethod (IHeader.getMethod x.1) x.2 = tallyHandler := by
      simp only [tally] at hservice
      split at hservice
      · cases hservice
        rfl
      · cases hservice
    rw [hcall]
    intro st _
    refine .inr (.inl ⟨rfl, ?_⟩)
    intro st' _
    exact .inl ⟨_, rfl, trivial, fun _ => ⟨rfl, rfl⟩⟩

/-- Connection 0 brings a call in two chunks, connection 1 a call and one of an unknown service.
The handler of connection 1 starts last and acts first. -/
def tallyRun : List (Event Nat Empty) :=
  [.receive 0 ((tallyCall [1]).take 9),
    .receive 1 (tallyCall [2] ++ (⟨0, 7, 0, [], []⟩ : UcorfHead).bytes), .round 0,
      .receive 0 ((tallyCall [1]).drop 9), .round 0, .work 0, .round 1, .work 1, .work 1, .work 0,
    .work 0, .answer 0, .work 1, .answer 1, .round 1, .round 0]

theorem handlers_sequential_tally :
    ∃ s log answers, run (step (H := UcorfHead) tally unchanged)
      (start 0) tallyRun = some s ∧ s.st = 2 ∧
      (s.sessions 0).running.isNone ∧ (s.sessions 1).closed = true ∧
      Linear tally unchanged 0 tallyRun s log answers ∧
      ∀ pre post m, tallyRun = pre ++ post → run (step (H := UcorfHead) tally unchanged)
        (start 0) pre = some m →
        ∃ log' answers', log' <+: log ∧ Linear tally unchanged 0 pre m log' answers' := by
  obtain ⟨s, h, hs⟩ := run_exists (step (H := UcorfHead) tally unchanged) (start 0) tallyRun
    (fun s => s.st = 2 ∧ (s.sessions 0).running.isNone ∧ (s.sessions 1).closed) (by decide +kernel)
  obtain ⟨hst, hrunning, hclosed⟩ := of_decide_eq_true hs
  obtain ⟨log, answers, hlinear⟩ := handlers_sequential (tally_atomic tallyRun) h
  exact ⟨s, log, answers, h, hst, hrunning, hclosed, hlinear⟩

end Samples

end Ucorf.Handlers
