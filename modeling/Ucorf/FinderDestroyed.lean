import Ucorf.FinderReconcile

/-!
# A destroyed finder

The handlers hold a shared token and the mutex, and outlive the finder. The destructor
waits for the mutex and expires the token, so nobody is inside when it does, and every
handler that gets in later sees it. From then on `on_disconnect_` is not called, no transport
is made or shut down, and the attempts that are left come to an end. A `Connect` looks at
neither of the two: one that succeeds now still calls `on_connect_`, at most once for each
attempt that was left.
-/
namespace Ucorf.FinderDestroyed

open Ucorf.Message
open Ucorf.Threads
open Ucorf.Finder
open Ucorf.FinderSections
open Ucorf.FinderReconcile

/-- The handler has seen a live token and has not left the mutex since. -/
def busy : Thread → Bool
  | .childs _ (.shutting _) => true
  | .disc _ _ .calling => true
  | .retry _ _ .passing => true
  | _ => false

/-- The destructor has expired the token. -/
def expired : Thread → Bool
  | .destroy .expired => true
  | .destroy .done => true
  | _ => false

/-- The sections that are left to a thread when the token has expired, those of an attempt
that it may start among them. -/
def left : Thread → Nat
  | .childs _ .notified => 3
  | .childs _ .holding => 2
  | .childs _ (.shutting _) => 0
  | .childs _ (.leaving _) => 1
  | .childs _ (.returned _) => 0
  | .disc _ _ .broken => 4
  | .disc _ _ .notified => 3
  | .disc _ _ .holding => 2
  | .disc _ _ .calling => 0
  | .disc _ _ (.leaving _) => 1
  | .disc _ _ (.returned _) => 0
  | .retry _ _ .connecting => 5
  | .retry _ _ .sleeping => 4
  | .retry _ _ .woken => 3
  | .retry _ _ .holding => 2
  | .retry _ _ .passing => 0
  | .retry _ _ .going => 6
  | .retry _ _ (.leaving _) => 1
  | .retry _ _ (.returned _) => 0
  | .reconnect .entered => 1
  | .reconnect (.returned _) => 0
  | .destroy .entered => 3
  | .destroy .holding => 2
  | .destroy .expired => 1
  | .destroy .done => 0

def leftOver (threads : List Thread) : Nat := (threads.map left).sum

/-- With the token expired the thread may still come to call `on_connect_`, once. -/
def callsBack : Thread → Bool
  | .retry _ _ .connecting => true
  | .retry _ _ .going => true
  | .reconnect .entered => true
  | _ => false

/-- Whoever has expired the token has met nobody inside, and nobody gets in any more. -/
structure Expired (m : State) : Prop where
  exclusive : Exclusive m
  token : ∀ t ∈ m.threads, expired t = true → m.shared.token = false
  idle : m.shared.token = false → ∀ t ∈ m.threads, busy t = false

section Sections

variable {s s' : ServerFinder} {self : Nat} {t t' : Thread} {new : List Thread} {a : Label}

theorem contender_busy {lost won : Thread} (h : Contender t lost won) :
    busy lost = false ∧ busy won = false ∧ expired lost = false ∧ expired won = false ∧
      left lost < left t ∧ left won < left t := by
  cases h <;> simp [busy, expired, left]

theorem late_busy (h : Late t a t') : busy t' = false ∧ expired t' = false ∧ left t' < left t := by
  cases h <;> simp [busy, expired, left]

/-- A section calls `on_connect_` at most once, and then the thread is done with it. -/
theorem section_connects (h : Section s self t a s' t' new) (htoken : s.token = false)
    (ht : busy t = false) : ∃ called, s'.connects = s.connects ++ called ∧
      called.length + (if callsBack t' then 1 else 0) + new.countP callsBack ≤
        if callsBack t then 1 else 0 := by
  have hnone {s'' : ServerFinder} {u : Thread} (hsame : s''.connects = s.connects)
      (hu : callsBack u = false) :
        ∃ called, s''.connects = s.connects ++ called ∧
          called.length + (if callsBack u then 1 else 0) + ([] : List Thread).countP callsBack ≤
            if callsBack t then 1 else 0 :=
    ⟨[], by simpa using hsame, by simp [hu]⟩
  cases h with
  | contended _ hc => cases hc <;> exact hnone rfl rfl
  | acquired _ hc => cases hc <;> exact hnone rfl rfl
  | dead _ hl => cases hl <;> exact hnone rfl rfl
  | released hr =>
    cases hr with
    | passing => cases ht
    | _ => exact hnone rfl rfl
  | apply hlive =>
    rw [htoken] at hlive
    cases hlive
  | unreferenced hlive =>
    rw [htoken] at hlive
    cases hlive
  | check hlive =>
    rw [htoken] at hlive
    cases hlive
  | call => cases ht
  | unwanted hlive =>
    rw [htoken] at hlive
    cases hlive
  | passed hlive =>
    rw [htoken] at hlive
    cases hlive
  | @connected tp => exact ⟨[tp], rfl, by simp [callsBack]⟩
  | @reconnected _ tp => exact ⟨[tp], rfl, by simp [callsBack]⟩
  | go => exact ⟨[], by simp, by simp [callsBack]⟩
  | _ => exact hnone rfl rfl

/-- With the token expired a thread that is not busy comes closer to its end. -/
theorem section_left (h : Section s self t a s' t' new) (htoken : s.token = false)
    (ht : busy t = false) : busy t' = false ∧ left t' + leftOver new < left t := by
  cases h with
  | contended _ hc =>
    obtain ⟨hlost, -, -, -, hlt, -⟩ := contender_busy hc
    exact ⟨hlost, hlt⟩
  | acquired _ hc =>
    obtain ⟨-, hwon, -, -, -, hlt⟩ := contender_busy hc
    exact ⟨hwon, hlt⟩
  | dead _ hl =>
    obtain ⟨hidle, -, hlt⟩ := late_busy hl
    exact ⟨hidle, hlt⟩
  | released hr =>
    cases hr with
    | shut => cases ht
    | passing => cases ht
    | _ => exact ⟨rfl, by simp [left, leftOver]⟩
  | apply hlive =>
    rw [htoken] at hlive
    cases hlive
  | shutdown => cases ht
  | unreferenced hlive =>
    rw [htoken] at hlive
    cases hlive
  | check hlive =>
    rw [htoken] at hlive
    cases hlive
  | call => cases ht
  | unwanted hlive =>
    rw [htoken] at hlive
    cases hlive
  | passed hlive =>
    rw [htoken] at hlive
    cases hlive
  | _ => exact ⟨rfl, by simp [left, leftOver]⟩

/-- With the token expired such a thread does nothing to the finder but mark a transport. -/
theorem section_quiet (h : Section s self t a s' t' new) (htoken : s.token = false)
    (ht : busy t = false) : Keeps s s' [] ∧ s'.calls = s.calls := by
  constructor
  · rcases keeps_section h with hkeeps | ⟨nodes, tp, tps, rfl, -⟩ | ⟨nodes, -, hlive, -⟩
    · exact hkeeps
    · cases ht
    · rw [htoken] at hlive
      cases hlive
  · rcases (shared_section h).2.2 with hcalls | ⟨tp, ec, rfl, -⟩
    · exact hcalls
    · cases ht

/-- Only the destructor expires the token, from inside. -/
theorem section_token (h : Section s self t a s' t' new) :
    (s'.token = s.token ∧ (expired t' = true → expired t = true)) ∨
    (t = .destroy .holding ∧ t' = .destroy .expired ∧ new = [] ∧ s'.token = false) := by
  cases h with
  | contended _ hc =>
    obtain ⟨-, -, hlost, -⟩ := contender_busy hc
    exact .inl ⟨rfl, by simp [hlost]⟩
  | acquired _ hc =>
    obtain ⟨-, -, -, hwon, -⟩ := contender_busy hc
    exact .inl ⟨rfl, by simp [hwon]⟩
  | dead _ hl =>
    obtain ⟨-, hl, -⟩ := late_busy hl
    exact .inl ⟨rfl, by simp [hl]⟩
  | released hr => cases hr <;> exact .inl ⟨rfl, by simp [expired]⟩
  | @apply nodes _ =>
    obtain ⟨group, tps, hfinder⟩ := finder_foldl nodes ⟨s, ∅, []⟩
    rw [show reconcile s nodes = nodes.foldl onNode ⟨s, ∅, []⟩ from rfl, hfinder]
    exact .inl ⟨rfl, by simp [expired]⟩
  | call => exact .inl ⟨by split <;> rfl, by simp [expired]⟩
  | expire => exact .inr ⟨rfl, rfl, rfl, rfl⟩
  | _ => exact .inl ⟨rfl, by simp [expired]⟩

end Sections

section Steps

variable {m m' : State} {act : Action Thread Label}

theorem start_idle {t : Thread} (h : program.start t = true) :
    busy t = false ∧ expired t = false ∧ left t ≤ 4 := by
  change isStart t = true at h
  unfold isStart at h
  split at h <;> simp_all [busy, expired, left]

/-- `ReConnect` is called by others than the handlers. -/
def isReConnect : Action Thread Label → Bool
  | .spawn (.reconnect _) => true
  | _ => false

theorem start_callsBack {t : Thread} (h : program.start t = true) :
    callsBack t = isReConnect (.spawn t) := by
  change isStart t = true at h
  unfold isStart at h
  split at h <;> simp_all [callsBack, isReConnect]

theorem inside_of_busy {t : Thread} (h : inside t = false) : busy t = false := by
  unfold busy
  split <;> first | rfl | cases h

theorem new_idle {s s' : ServerFinder} {self : Nat} {t t' : Thread} {new : List Thread} {a : Label}
    (h : Section s self t a s' t' new) :
    ∀ u ∈ new, busy u = false ∧ expired u = false := by
  intro u hu
  obtain ⟨tp, url, rfl⟩ := new_section h u hu
  exact ⟨rfl, rfl⟩

theorem expired_step (he : Expired m) (h : program.step m act = some m') : Expired m' := by
  have hexclusive := exclusive_step he.exclusive h
  cases act with
  | spawn u =>
    obtain ⟨hstart, rfl⟩ := step_spawn h
    obtain ⟨hidle, hlive, -⟩ := start_idle hstart
    refine ⟨hexclusive, fun t ht hexpired => ?_, fun htoken t ht => ?_⟩
    · rcases List.mem_append.mp ht with ht | ht
      · exact he.token t ht hexpired
      · rw [List.mem_singleton.mp ht, hlive] at hexpired
        cases hexpired
    · rcases List.mem_append.mp ht with ht | ht
      · exact he.idle htoken t ht
      · rw [List.mem_singleton.mp ht, hidle]
  | run i a =>
    obtain ⟨u, shared, u', new, hi, hn, rfl⟩ := step_run h
    have hsection := next_section hn
    have hu := List.mem_of_getElem? hi
    refine ⟨hexclusive, ?_, ?_⟩
    · intro t ht hexpired
      rcases section_token hsection with ⟨hsame, hback⟩ | ⟨-, -, -, htoken⟩
      · rw [show shared.token = m.shared.token from hsame]
        rcases mem_after hi ht with rfl | hnew | ⟨j, -, hj⟩
        · exact he.token u hu (hback hexpired)
        · rw [(new_idle hsection t hnew).2] at hexpired
          cases hexpired
        · exact he.token t (List.mem_of_getElem? hj) hexpired
      · exact htoken
    · intro htoken t ht
      rcases section_token hsection with ⟨hsame, -⟩ | ⟨rfl, rfl, rfl, -⟩
      · have htoken' : m.shared.token = false := hsame ▸ htoken
        rcases mem_after hi ht with rfl | hnew | ⟨j, -, hj⟩
        · exact (section_left hsection htoken' (he.idle htoken' u hu)).1
        · exact (new_idle hsection t hnew).1
        · exact he.idle htoken' t (List.mem_of_getElem? hj)
      · -- the destructor is inside, so the others are not
        rcases mem_after hi ht with rfl | hnew | ⟨j, hji, hj⟩
        · rfl
        · cases hnew
        · exact inside_of_busy (he.exclusive.alone hi hj rfl (Ne.symm hji))

theorem expired_run {onDisconnect : Bool} {mode : EMode} {url : Bytes}
    {acts : List (Action Thread Label)}
    (h : run program.step (start onDisconnect mode url) acts = some m) : Expired m := by
  refine run_invariant (I := Expired) ?_ (fun m act m' he hstep => expired_step he hstep) h
  refine ⟨exclusive_start onDisconnect mode url, ?_, ?_⟩
  · cases mode <;> simp [start, expired]
  · cases mode <;> simp [start]

def isSpawn : Action Thread Label → Bool
  | .spawn _ => true
  | .run _ _ => false

def isSection : Action Thread Label → Bool
  | .spawn _ => false
  | .run _ _ => true

theorem leftOver_set {threads : List Thread} {i : Nat} {t : Thread} (t' : Thread)
    (hi : threads[i]? = some t) :
    leftOver (threads.set i t') + left t = leftOver threads + left t' := by
  obtain ⟨hlt, hget⟩ := List.getElem?_eq_some_iff.mp hi
  have hsplit : threads = threads.take i ++ t :: threads.drop (i + 1) := by
    rw [← hget, List.getElem_cons_drop, List.take_append_drop]
  rw [List.set_eq_take_append_cons_drop, if_pos hlt]
  conv => rhs; rw [hsplit]
  simp only [leftOver, List.map_append, List.map_cons, List.sum_append, List.sum_cons]
  omega

/-- Since the first state `on_disconnect_` was not called, nothing was made, listed or shut
down, every call of `on_connect_` used up an attempt that was left or a later `ReConnect`, and
every section has brought a thread closer to its end. -/
structure Silent (m : State) (acts : List (Action Thread Label)) (m' : State) : Prop where
  keeps : Keeps m.shared m'.shared []
  calls : m'.shared.calls = m.shared.calls
  connects : ∃ called, m'.shared.connects = m.shared.connects ++ called ∧
    called.length + m'.threads.countP callsBack ≤
      m.threads.countP callsBack + acts.countP isReConnect
  left : acts.countP isSection + leftOver m'.threads ≤ leftOver m.threads + 4 * acts.countP isSpawn

theorem silent_step {m₀ : State} {acts : List (Action Thread Label)} (he : Expired m)
    (htoken : m.shared.token = false) (hs : Silent m₀ acts m) (h : program.step m act = some m') :
    m'.shared.token = false ∧ Silent m₀ (acts ++ [act]) m' := by
  have hleft := hs.left
  obtain ⟨called, hconnects, hcalled⟩ := hs.connects
  cases act with
  | spawn u =>
    obtain ⟨hstart, rfl⟩ := step_spawn h
    obtain ⟨-, -, hfew⟩ := start_idle hstart
    refine ⟨htoken, hs.keeps, hs.calls, ⟨called, hconnects, ?_⟩, ?_⟩
    · rw [List.countP_append, List.countP_append, List.countP_singleton, List.countP_singleton,
        start_callsBack hstart]
      omega
    have hsum : leftOver (m.threads ++ [u]) = leftOver m.threads + left u := by simp [leftOver]
    rw [List.countP_append, List.countP_append, hsum]
    simp only [List.countP_singleton, isSection, isSpawn, Bool.false_eq_true, if_false, if_true]
    omega
  | run i a =>
    obtain ⟨u, shared, u', new, hi, hn, rfl⟩ := step_run h
    have hsection := next_section hn
    have hidle := he.idle htoken u (List.mem_of_getElem? hi)
    obtain ⟨hkeeps, hcalls⟩ := section_quiet hsection htoken hidle
    obtain ⟨more, hmore, hfewer⟩ := section_connects hsection htoken hidle
    refine ⟨(shared_section hsection).1 htoken, hs.keeps.trans hkeeps, hcalls.trans hs.calls,
      ⟨called ++ more, by rw [← List.append_assoc, ← hconnects, ← hmore], ?_⟩, ?_⟩
    · have hcount := countP_run callsBack u' hi
      rw [List.countP_append, List.countP_append, List.length_append, List.countP_singleton]
      simp only [isReConnect, Bool.false_eq_true, if_false]
      omega
    have hlt := (section_left hsection htoken hidle).2
    have hset := leftOver_set u' hi
    have hsum : leftOver (m.threads.set i u' ++ new) = leftOver (m.threads.set i u') + leftOver
        new := by simp [leftOver]
    rw [List.countP_append, List.countP_append, hsum]
    simp only [List.countP_singleton, isSection, isSpawn, Bool.false_eq_true, if_false, if_true]
    omega

/-- Two attempts are under way when the finder is destroyed. -/
def lateRun : List (Action Thread Label) :=
  [.spawn (.childs [[97, 58, 84, 67, 80], [98, 58, 84, 67, 80]] .notified),
    .run 0 .tryLock, .run 0 .apply, .run 0 .unlock, .spawn (.destroy .entered), .run 3 .lock,
      .run 3 .expire, .run 3 .unlock]

/-- One attempt fails, and its retry meets the expired token, as another notification does. The
other attempt connects. -/
def afterRun : List (Action Thread Label) :=
  [.run 1 (.connect (makeUcorfErrorCode .ecNoEstab)), .spawn (.childs [] .notified),
    .run 4 .tryLock, .run 4 .apply, .run 4 .unlock, .run 1 .wake, .run 1 .tryLock,
      .run 1 .decide, .run 2 (.connect .ok)]

end Steps

end Ucorf.FinderDestroyed
