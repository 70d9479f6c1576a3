import Ucorf.FinderSections

/-!
# Events of the server finder

Every handler of the finder begins with a `try_lock` of `destroy_mutex_` and returns
when the mutex is taken, by the destructor or by another handler. While every
`try_lock` finds the mutex free, no event gets lost: what became of each handler that
has returned is read off the run. A notification that meets another handler does
nothing at all.
-/
namespace Ucorf.FinderEvents

open Ucorf.Message
open Ucorf.Threads
open Ucorf.ZookeeperUrl
open Ucorf.Finder
open Ucorf.FinderSections

/-- The calls of `on_disconnect_` for notification `i`. -/
def callsOf (s : ServerFinder) (i : Nat) : List (Nat × Nat × BoostEc) :=
  s.calls.filter fun c => c.1 = i

/-- What a notification with these children leaves in `transports_`. -/
def Applied (nodes : List Bytes) (m : State) : Prop :=
  ∀ url, url ∈ m.shared.transports ↔ url ∈ nodes.map zookeeperNode2Url

/-- Nobody holds a reference to the transport when the notification `i` asks for one. -/
def Unreferenced (s₀ : State) (acts : List (Action Thread Label)) (i tp : Nat) : Prop :=
  Occurs program.step s₀ acts (.run i (.check false)) fun m _ => ∃ t, m.shared.tps[tp]? = some t ∧
    m.shared.holds tp t.url = false

section Fates

variable (s₀ : State) (acts : List (Action Thread Label)) (s : ServerFinder) (i : Nat)

def ChildsFate (nodes : List Bytes) : ChildsExit → Prop
  | .contended => False
  | .dead => s.token = false
  | .applied => Occurs program.step s₀ acts (.run i .apply) fun _ m' => Applied nodes m'

def DiscFate (tp : Nat) (ec : BoostEc) : DiscExit → Prop
  | .contended => False
  | .dead => s.token = false
  | .unreferenced => callsOf s i = [] ∧ Unreferenced s₀ acts i tp
  | .called => callsOf s i = if s.onDisconnect then [(i, tp, ec)] else []

def RetryFate (tp : Nat) (url : Bytes) : RetryExit → Prop
  | .connected => ∃ ec, ec.failed = false ∧ .run i (.connect ec) ∈ acts
  | .established => Occurs program.step s₀ acts (.run i .wake) fun m _ => m.shared.isEstab tp = true
  | .contended => False
  | .dead => s.token = false
  | .unwanted => Occurs program.step s₀ acts (.run i .decide) fun m _ => m.shared.wants url = false
  | .rescheduled => Occurs program.step s₀ acts (.run i .go) fun m m' =>
      m'.threads[m.threads.length]? = some (.retry tp url .connecting)

/-- What is known of a handler, at any point. -/
def Fate : Thread → Prop
  | .childs nodes (.shutting _) => ChildsFate s₀ acts s i nodes .applied
  | .childs nodes (.leaving e) => ChildsFate s₀ acts s i nodes e
  | .childs nodes (.returned e) => ChildsFate s₀ acts s i nodes e
  | .disc tp ec (.leaving e) => DiscFate s₀ acts s i tp ec e
  | .disc tp ec (.returned e) => DiscFate s₀ acts s i tp ec e
  | .disc _ _ _ => callsOf s i = []
  | .retry tp url (.leaving e) => RetryFate s₀ acts s i tp url e
  | .retry tp url (.returned e) => RetryFate s₀ acts s i tp url e
  | _ => True

end Fates

section Steps

variable {s₀ m m' : State} {acts : List (Action Thread Label)} {act : Action Thread Label}
    {s s' : ServerFinder}
variable {i : Nat} {t t' : Thread} {new : List Thread} {a : Label}

/-- Other steps leave the fate of a handler as it is. -/
theorem fate_kept (htoken : s.token = false → s'.token = false)
    (hset : s'.onDisconnect = s.onDisconnect)
    (hcalls : callsOf s' i = callsOf s i) (h : Fate s₀ acts s i t) :
    Fate s₀ (acts ++ [act]) s' i t := by
  have hchilds {nodes : List Bytes} {e : ChildsExit} (h : ChildsFate s₀ acts s i nodes e) :
      ChildsFate s₀ (acts ++ [act]) s' i nodes e := by
    cases e with
    | contended => exact h
    | dead => exact htoken h
    | applied => exact Occurs.snoc h act
  have hdisc {tp : Nat} {ec : BoostEc} {e : DiscExit} (h : DiscFate s₀ acts s i tp ec e) :
      DiscFate s₀ (acts ++ [act]) s' i tp ec e := by
    cases e with
    | contended => exact h
    | dead => exact htoken h
    | unreferenced => exact ⟨hcalls.trans h.1, Occurs.snoc h.2 act⟩
    | called =>
      rw [DiscFate, hcalls, hset]
      exact h
  have hretry {tp : Nat} {url : Bytes} {e : RetryExit} (h : RetryFate s₀ acts s i tp url e) :
      RetryFate s₀ (acts ++ [act]) s' i tp url e := by
    cases e with
    | connected =>
      obtain ⟨ec, hec, hmem⟩ := h
      exact ⟨ec, hec, List.mem_append_left _ hmem⟩
    | contended => exact h
    | dead => exact htoken h
    | _ => exact Occurs.snoc h act
  cases t with
  | childs nodes pc =>
    cases pc with
    | shutting => exact hchilds (e := .applied) h
    | leaving => exact hchilds h
    | returned => exact hchilds h
    | _ => trivial
  | disc tp ec pc =>
    cases pc with
    | leaving => exact hdisc h
    | returned => exact hdisc h
    | _ => exact hcalls.trans h
  | retry tp url pc =>
    cases pc with
    | leaving => exact hretry h
    | returned => exact hretry h
    | _ => trivial
  | _ => trivial

/-- Every `try_lock` finds the mutex free. -/
def lockFree (m : State) : Action Thread Label → Bool
  | .run _ .tryLock => !m.shared.locked
  | _ => true

/-- A handler's own section. -/
theorem fate_section (hrun : run program.step s₀ acts = some m)
    (hstep : program.step m (.run i a) = some m')
    (hs : Section m.shared i t a m'.shared t' new)
    (hnew : ∀ u, new = [u] → m'.threads[m.threads.length]? = some u)
    (hfree : lockFree m (.run i a) = true) (h : Fate s₀ acts m.shared i t) :
    Fate s₀ (acts ++ [.run i a]) m'.shared i t' := by
  have hlast {R : State → State → Prop} (hr : R m m') :
      Occurs program.step s₀ (acts ++ [.run i a]) (.run i a) R :=
    occurs_last hrun hstep hr
  generalize hm : m'.shared = sh at hs
  cases hs with
  | contended hlocked => simp [lockFree, hlocked] at hfree
  | acquired _ hc =>
    cases hc with
    | disc => exact h
    | _ => trivial
  | dead htoken hl => cases hl <;> exact htoken
  | released hr =>
    cases hr with
    | shut => exact fate_kept (s := m.shared) id rfl rfl h
    | childs => exact fate_kept (s := m.shared) id rfl rfl h
    | disc => exact fate_kept (s := m.shared) id rfl rfl h
    | retry => exact fate_kept (s := m.shared) id rfl rfl h
    | _ => trivial
  | apply =>
    refine hlast fun url => ?_
    rw [hm]
    exact mem_reconcile m.shared _ url
  | shutdown => exact fate_kept (s := m.shared) id rfl rfl h
  | drop => exact h
  | unreferenced _ ht hholds => exact ⟨h, hlast ⟨_, ht, hholds⟩⟩
  | check => exact h
  | call =>
    have hnone : callsOf m.shared i = [] := h
    cases hset : m.shared.onDisconnect
    · simp [Fate, DiscFate, hset, hnone]
    · simp only [Fate, DiscFate, if_true, callsOf, List.filter_append]
      rw [show m.shared.calls.filter (fun c => c.1 = i) = [] from hnone]
      simp
  | connected hec => exact ⟨_, hec, by simp⟩
  | established hestab => exact hlast hestab
  | unwanted _ hwants => exact hlast hwants
  | go => exact hlast (hnew _ rfl)
  | _ => trivial

/-- What became of every handler so far. -/
structure Tracked (s₀ : State) (acts : List (Action Thread Label)) (s : State) : Prop where
  fates : ∀ (i : Nat) t, s.threads[i]? = some t → Fate s₀ acts s.shared i t
  calls : ∀ c ∈ s.shared.calls, c.1 < s.threads.length

theorem Tracked.callsOf_new {m : State} (h : Tracked s₀ acts m) (hi : m.threads.length ≤ i) :
    callsOf m.shared i = [] := by
  rw [callsOf, List.filter_eq_nil_iff]
  intro c hc he
  have := h.calls c hc
  simp only [decide_eq_true_eq] at he
  omega

theorem fate_start (h : isStart t = true) (hcalls : callsOf s i = []) : Fate s₀ acts s i t := by
  unfold isStart at h
  split at h
  · trivial
  · exact hcalls
  · trivial
  · trivial
  · cases h

theorem tracked_step (hrun : run program.step s₀ acts = some m) (ht : Tracked s₀ acts m)
    (hfree : lockFree m act = true)
    (h : program.step m act = some m') : Tracked s₀ (acts ++ [act]) m' := by
  cases act with
  | spawn u =>
    obtain ⟨hstart, rfl⟩ := step_spawn h
    constructor
    · intro i t hi
      rcases thread_step_back h hi with ⟨hold, -⟩ | ⟨a, u, new, hact, -⟩ |
        ⟨hle, hact, hu⟩ | ⟨-, j, a, u, u', new, hact, -⟩
      · exact fate_kept (s := m.shared) id rfl rfl (ht.fates i t hold)
      · cases hact
      · exact fate_start hu (ht.callsOf_new hle)
      · cases hact
    · intro c hc
      rw [List.length_append]
      exact Nat.lt_add_right _ (ht.calls c hc)
  | run j a =>
    obtain ⟨u, shared, u', new, hu, hn, rfl⟩ := step_run h
    obtain ⟨hlt, -⟩ := List.getElem?_eq_some_iff.mp hu
    have hs := next_section hn
    obtain ⟨htoken, hset, hcalls⟩ := shared_section hs
    constructor
    · intro i t hi
      rcases thread_step_back h hi with ⟨hold, hact⟩ | ⟨b, v, new', hact, hv, hn'⟩ | ⟨-, hact, -⟩ |
        ⟨-, k, b, v, v', new', hact, hv, hn', hmem⟩
      · have hij : j ≠ i := fun he => hact a (by rw [he])
        refine fate_kept (s := m.shared) htoken hset ?_ (ht.fates i t hold)
        rcases hcalls with hsame | ⟨tp, ec, -, happ⟩
        · rw [callsOf, hsame, callsOf]
        · simp [callsOf, happ, hij]
      · cases hact
        refine fate_section hrun h (next_section hn') ?_ hfree (ht.fates j v hv)
        rintro w rfl
        rw [hu] at hv
        cases hv
        rw [hn] at hn'
        cases hn'
        simp
      · cases hact
      · cases hact
        obtain ⟨tp, url, rfl⟩ := new_section (next_section hn') t hmem
        trivial
    · intro c hc
      simp only [List.length_append, List.length_set]
      rcases hcalls with hsame | ⟨tp, ec, -, happ⟩
      · rw [hsame] at hc
        exact Nat.lt_add_right _ (ht.calls c hc)
      · rw [happ, List.mem_append, List.mem_singleton] at hc
        rcases hc with hc | rfl
        · exact Nat.lt_add_right _ (ht.calls c hc)
        · exact Nat.lt_add_right _ hlt

theorem tracked (onDisconnect : Bool) (mode : EMode) (url : Bytes) {s : State}
    (hc : Guarded program.step (fun m act => lockFree m act = true)
      (start onDisconnect mode url) acts)
    (h : run program.step (start onDisconnect mode url) acts = some s) :
    Tracked (start onDisconnect mode url) acts s := by
  refine guarded_trace_invariant ?_
    (fun pre m a m' hrun ht hfree hstep => tracked_step hrun ht hfree hstep) hc h
  cases mode with
  | zk => constructor <;> simp [start]
  | single =>
    constructor
    · intro i t hi
      have hmem := List.mem_of_getElem? hi
      rw [start, List.mem_singleton] at hmem
      subst hmem
      trivial
    · simp [start]

end Steps

/-- No event has been lost: what a handler that has returned was there for was done,
or was not to be done. -/
structure Lossless (s₀ : State) (acts : List (Action Thread Label)) (s : State) : Prop where
  childs : ∀ (i : Nat) nodes e, s.threads[i]? = some (.childs nodes (.returned e)) →
    Occurs program.step s₀ acts (.run i .apply) fun _ m' => Applied nodes m'
  discs : ∀ (i : Nat) tp ec e, s.threads[i]? = some (.disc tp ec (.returned e)) →
    callsOf s.shared i = (if s.shared.onDisconnect then [(i, tp, ec)] else []) ∨
      (callsOf s.shared i = [] ∧ Unreferenced s₀ acts i tp)
  once : ∀ (i : Nat) tp ec pc, s.threads[i]? = some (.disc tp ec pc) →
    callsOf s.shared i = [] ∨ callsOf s.shared i = [(i, tp, ec)]
  retries : ∀ (i : Nat) tp url e, s.threads[i]? = some (.retry tp url (.returned e)) →
    (∃ ec, ec.failed = false ∧ .run i (.connect ec) ∈ acts) ∨
    (Occurs program.step s₀ acts (.run i .wake) fun m _ => m.shared.isEstab tp = true) ∨
    (Occurs program.step s₀ acts (.run i .decide) fun m _ => m.shared.wants url = false) ∨
    Occurs program.step s₀ acts (.run i .go) fun m m' =>
      m'.threads[m.threads.length]? = some (.retry tp url .connecting)

/-- While the finder is alive and every `try_lock` of `destroy_mutex_` succeeds, no event
is lost. -/
theorem lossless_of_lockFree (onDisconnect : Bool) (mode : EMode) (url : Bytes)
    (acts : List (Action Thread Label))
    (s : State) (hc : Guarded program.step (fun m act => lockFree m act = true)
      (start onDisconnect mode url) acts)
    (h : run program.step (start onDisconnect mode url) acts = some s)
    (htoken : s.shared.token = true) :
    Lossless (start onDisconnect mode url) acts s := by
  have ht := tracked onDisconnect mode url hc h
  have halive {p : Prop} (hdead : s.shared.token = false) : p := by
    rw [htoken] at hdead
    cases hdead
  constructor
  · intro i nodes e hi
    have hf : ChildsFate _ acts s.shared i nodes e := ht.fates i _ hi
    cases e with
    | contended => cases hf
    | dead => exact halive hf
    | applied => exact hf
  · intro i tp ec e hi
    have hf : DiscFate _ acts s.shared i tp ec e := ht.fates i _ hi
    cases e with
    | contended => cases hf
    | dead => exact halive hf
    | unreferenced => exact .inr hf
    | called => exact .inl hf
  · intro i tp ec pc hi
    have hf := ht.fates i _ hi
    have hexit {e : DiscExit}
        (hf : DiscFate (start onDisconnect mode url) acts s.shared i tp ec e) :
          callsOf s.shared i = [] ∨ callsOf s.shared i = [(i, tp, ec)] := by
      cases e with
      | contended => cases hf
      | dead => exact halive hf
      | unreferenced => exact .inl hf.1
      | called =>
        rw [DiscFate] at hf
        rw [hf]
        split
        · exact .inr rfl
        · exact .inl rfl
    cases pc with
    | leaving e => exact hexit hf
    | returned e => exact hexit hf
    | _ => exact .inl hf
  · intro i tp url' e hi
    have hf : RetryFate _ acts s.shared i tp url' e := ht.fates i _ hi
    cases e with
    | connected => exact .inl hf
    | established => exact .inr (.inl hf)
    | contended => cases hf
    | dead => exact halive hf
    | unwanted => exact .inr (.inr (.inl hf))
    | rescheduled => exact .inr (.inr (.inr hf))

section Runs

/-- The child `a:TCP`. -/
def sampleNode : Bytes := [97, 58, 84, 67, 80]

/-- `ec_no_estab` stands for the error of the broken connection. -/
def lost : BoostEc := makeUcorfErrorCode .ecNoEstab

/-- The only child is announced and its transport connects. -/
def listedRun : List (Action Thread Label) :=
  [.spawn (.childs [sampleNode] .notified), .run 0 .tryLock, .run 0 .apply,
    .run 0 .unlock, .run 1 (.connect .ok)]

/-- The connection breaks, and the first attempt to get it back fails. -/
def brokenRun : List (Action Thread Label) :=
  listedRun ++ [.spawn (.disc 0 lost .broken), .run 2 .drop, .run 2 .tryLock,
    .run 2 (.check false), .run 2 .call, .run 2 .unlock, .run 3 (.connect lost), .run 3 .wake,
      .run 3 .tryLock, .run 3 .decide,
    .run 3 .unlock, .run 3 .go]

theorem lossless_broken : ∃ s : State, run program.step (start true .zk []) brokenRun = some s ∧
    Lossless (start true .zk []) brokenRun s := by
  obtain ⟨s, hs, htoken⟩ :=
    run_exists program.step (start true .zk []) brokenRun (fun s => s.shared.token)
    (by decide +kernel)
  exact ⟨s, hs, lossless_of_lockFree true .zk [] brokenRun s (by decide +kernel) hs htoken⟩

/-- The connection breaks while another children notification is being handled. -/
def contendedRun : List (Action Thread Label) :=
  listedRun ++ [.spawn (.childs [sampleNode] .notified), .run 2 .tryLock,
    .spawn (.disc 0 lost .broken), .run 3 .drop, .run 3 .tryLock]

/-- The notification is dropped: nobody calls `on_disconnect_` and nobody reconnects. -/
theorem contended_lost :
    ¬ ∀ (acts : List (Action Thread Label))
      (s : State), run program.step (start true .zk []) acts = some s →
      s.shared.token = true → Lossless (start true .zk []) acts s := by
  intro hall
  obtain ⟨s, hs, hend⟩ := run_exists program.step (start true .zk []) contendedRun
    (fun s => s.shared.token = true ∧ s.threads[3]? = some (.disc 0 lost (.returned .contended)) ∧
      s.shared.calls = [] ∧ s.shared.onDisconnect = true) (by decide +kernel)
  obtain ⟨htoken, ht, hcalls, hset⟩ := of_decide_eq_true hend
  have hnone : callsOf s.shared 3 = [] := by
    rw [callsOf, hcalls]
    rfl
  rcases (hall _ s hs htoken).discs 3 0 lost _ ht with hcalled | ⟨-, hun⟩
  · rw [hnone, hset] at hcalled
    cases hcalled
  · exact absurd hun.mem (by decide)

end Runs

end Ucorf.FinderEvents
