import Ucorf.Finder

/-!
# The sections of the finder

What a section of each handler can do to the finder, read off the model once, what the
loop of a children notification does to the transports, and that one thread at most is
between its lock of the mutex and its unlock.
-/
namespace Ucorf.FinderSections

open Ucorf.Message
open Ucorf.Threads
open Ucorf.ZookeeperUrl
open Ucorf.Finder

section Loop

theorem group_onNode (r : Reconcile) (node : Bytes) :
    ∃ tp, (onNode r node).group = r.group.insert (zookeeperNode2Url node) tp := by
  simp only [onNode]
  split <;> exact ⟨_, rfl⟩

/-- The loop puts the url of each node into the new group. -/
theorem mem_foldl_onNode (nodes : List Bytes) (r : Reconcile) (url : Bytes) :
    url ∈ (nodes.foldl onNode r).group ↔ url ∈ r.group ∨ url ∈ nodes.map zookeeperNode2Url := by
  induction nodes generalizing r with
  | nil => simp
  | cons node nodes ih =>
    obtain ⟨tp, hgroup⟩ := group_onNode r node
    rw [List.foldl_cons, ih, hgroup, Std.ExtTreeMap.mem_insert, Std.LawfulEqCmp.compare_eq_iff_eq,
      List.map_cons, List.mem_cons, eq_comm]
    tauto

theorem mem_reconcile (s : ServerFinder) (nodes : List Bytes) (url : Bytes) :
    url ∈ (reconcile s nodes).group ↔ url ∈ nodes.map zookeeperNode2Url := by
  rw [reconcile, mem_foldl_onNode]
  simp

/-- The loop changes the two groups and makes transports, and nothing else. -/
theorem finder_foldl (nodes : List Bytes) (r : Reconcile) :
    ∃ group tps, (nodes.foldl onNode r).finder =
      { r.finder with transports := group, tps := r.finder.tps ++ tps } := by
  induction nodes generalizing r with
  | nil => exact ⟨r.finder.transports, [], by simp⟩
  | cons node nodes ih =>
    obtain ⟨group, tps, hfinder⟩ := ih (onNode r node)
    rw [List.foldl_cons, hfinder]
    simp only [onNode]
    split
    · exact ⟨group, tps, rfl⟩
    · exact ⟨group, _, by rw [List.append_assoc]⟩

/-- Every attempt that the loop starts is at its beginning. -/
theorem started_foldl (nodes : List Bytes) (r : Reconcile)
    (h : ∀ t ∈ r.started, ∃ tp url, t = .retry tp url .connecting) :
    ∀ t ∈ (nodes.foldl onNode r).started, ∃ tp url, t = .retry tp url .connecting := by
  induction nodes generalizing r with
  | nil => exact h
  | cons node nodes ih =>
    rw [List.foldl_cons]
    refine ih _ ?_
    simp only [onNode]
    split
    · exact h
    · intro t ht
      rw [List.mem_append, List.mem_singleton] at ht
      rcases ht with ht | rfl
      · exact h t ht
      · exact ⟨_, _, rfl⟩

end Loop

/-- A handler asks for the mutex, is turned away, or gets in. -/
inductive Contender : Thread → Thread → Thread → Prop where
  | childs {nodes : List Bytes} :
      Contender (.childs nodes .notified) (.childs nodes (.returned .contended))
      (.childs nodes .holding)
  | disc {tp : Nat} {ec : BoostEc} :
      Contender (.disc tp ec .notified) (.disc tp ec (.returned .contended)) (.disc tp ec .holding)
  | retry {tp : Nat} {url : Bytes} :
      Contender (.retry tp url .woken) (.retry tp url (.returned .contended))
      (.retry tp url .holding)

/-- A handler finds the token expired. -/
inductive Late : Thread → Label → Thread → Prop where
  | childs {nodes : List Bytes} :
      Late (.childs nodes .holding) .apply (.childs nodes (.leaving .dead))
  | disc {tp : Nat} {ec : BoostEc} {b : Bool} :
      Late (.disc tp ec .holding) (.check b) (.disc tp ec (.leaving .dead))
  | retry {tp : Nat} {url : Bytes} :
      Late (.retry tp url .holding) .decide (.retry tp url (.leaving .dead))

/-- A handler gives the mutex back. -/
inductive Release : Thread → Thread → Prop where
  | shut {nodes : List Bytes} :
      Release (.childs nodes (.shutting [])) (.childs nodes (.returned .applied))
  | childs {nodes : List Bytes} {e : ChildsExit} :
      Release (.childs nodes (.leaving e)) (.childs nodes (.returned e))
  | disc {tp : Nat} {ec : BoostEc} {e : DiscExit} :
      Release (.disc tp ec (.leaving e)) (.disc tp ec (.returned e))
  | retry {tp : Nat} {url : Bytes} {e : RetryExit} :
      Release (.retry tp url (.leaving e)) (.retry tp url (.returned e))
  | passing {tp : Nat} {url : Bytes} : Release (.retry tp url .passing) (.retry tp url .going)
  | destroy : Release (.destroy .expired) (.destroy .done)

/-- What a section can do. -/
inductive Section (s : ServerFinder) (self : Nat) :
    Thread → Label → ServerFinder → Thread → List Thread → Prop where
  | contended {t lost won : Thread} : s.locked = true → Contender t lost won →
      Section s self t .tryLock s lost []
  | acquired {t lost won : Thread} : s.locked = false → Contender t lost won →
      Section s self t .tryLock { s with locked := true } won []
  | dead {t t' : Thread} {a : Label} : s.token = false → Late t a t' → Section s self t a s t' []
  | released {t t' : Thread} : Release t t' →
      Section s self t .unlock { s with locked := false } t' []
  | apply {nodes : List Bytes} : s.token = true → Section s self (.childs nodes .holding) .apply
      { (reconcile s nodes).finder with transports := (reconcile s nodes).group }
      (.childs nodes (.shutting (missing (reconcile s nodes).finder.transports)))
        (reconcile s nodes).started
  | shutdown {nodes : List Bytes} {tp : Nat} {tps : List Nat} :
      Section s self (.childs nodes (.shutting (tp :: tps))) .shutdown (s.shutdown tp)
      (.childs nodes (.shutting tps)) []
  | drop {tp : Nat} {ec : BoostEc} : Section s self (.disc tp ec .broken) .drop (s.dropped tp)
      (.disc tp ec .notified) []
  | unreferenced {tp : Nat} {ec : BoostEc} {t : Transport} : s.token = true → s.tps[tp]? = some t →
      s.holds tp t.url = false →
      Section s self (.disc tp ec .holding)
      (.check false) s (.disc tp ec (.leaving .unreferenced)) []
  | check {tp : Nat} {ec : BoostEc} {elsewhere : Bool} {t : Transport} :
      s.token = true → s.tps[tp]? = some t →
      (elsewhere || s.holds tp t.url) = true → Section s self (.disc tp ec .holding)
      (.check elsewhere) s
        (.disc tp ec .calling) (if s.wants t.url then [.retry tp t.url .connecting] else [])
  | call {tp : Nat} {ec : BoostEc} : Section s self (.disc tp ec .calling) .call
      (if s.onDisconnect then { s with calls := s.calls ++ [(self, tp, ec)] } else s)
      (.disc tp ec (.leaving .called)) []
  | failed {tp : Nat} {url : Bytes} {ec : BoostEc} : ec.failed = true →
      Section s self (.retry tp url .connecting) (.connect ec) s (.retry tp url .sleeping) []
  | connected {tp : Nat} {url : Bytes} {ec : BoostEc} : ec.failed = false →
      Section s self (.retry tp url .connecting) (.connect ec) (s.connected tp)
      (.retry tp url (.returned .connected)) []
  | established {tp : Nat} {url : Bytes} : s.isEstab tp = true →
      Section s self (.retry tp url .sleeping) .wake s (.retry tp url (.returned .established)) []
  | woken {tp : Nat} {url : Bytes} : s.isEstab tp = false →
      Section s self (.retry tp url .sleeping) .wake s (.retry tp url .woken) []
  | unwanted {tp : Nat} {url : Bytes} : s.token = true → s.wants url = false →
      Section s self (.retry tp url .holding) .decide s (.retry tp url (.leaving .unwanted)) []
  | passed {tp : Nat} {url : Bytes} : s.token = true → s.wants url = true →
      Section s self (.retry tp url .holding) .decide s (.retry tp url .passing) []
  | go {tp : Nat} {url : Bytes} :
      Section s self (.retry tp url .going) .go s (.retry tp url (.returned .rescheduled))
      [.retry tp url .connecting]
  | reconnect {ec ec' : BoostEc} :
      Section s self (.reconnect .entered) (.connect ec) s (.reconnect (.returned ec')) []
  | reconnected {ec : BoostEc} {tp : Nat} :
      s.mode = .single → s.singleTp = some tp → ec.failed = false →
      Section s self (.reconnect .entered) (.connect ec) (s.connected tp)
      (.reconnect (.returned ec)) []
  | lock : s.locked = false → Section s self (.destroy .entered) .lock { s with locked := true }
      (.destroy .holding) []
  | expire : Section s self (.destroy .holding) .expire { s with token := false }
      (.destroy .expired) []

variable {s s' : ServerFinder} {self : Nat} {t t' : Thread} {new : List Thread} {a : Label}

theorem childsNext_section {nodes : List Bytes} {pc pc' : ChildsPc}
    (h : childsNext s nodes pc a = some (s', pc', new)) :
    Section s self (.childs nodes pc) a s' (.childs nodes pc') new := by
  unfold childsNext at h
  split at h
  · split at h <;> cases h
    · exact .contended (by assumption) .childs
    · exact .acquired (Bool.eq_false_iff.mpr (by assumption)) .childs
  · split at h <;> cases h
    · exact .apply (by assumption)
    · exact .dead (Bool.eq_false_iff.mpr (by assumption)) .childs
  · cases h
    exact .shutdown
  · cases h
    exact .released .shut
  · cases h
    exact .released .childs
  · cases h

theorem discNext_section {tp : Nat} {ec : BoostEc} {pc pc' : DiscPc}
    (h : discNext self s tp ec pc a = some (s', pc', new)) :
    Section s self (.disc tp ec pc) a s' (.disc tp ec pc') new := by
  unfold discNext at h
  split at h
  · cases h
    exact .drop
  · split at h <;> cases h
    · exact .contended (by assumption) .disc
    · exact .acquired (Bool.eq_false_iff.mpr (by assumption)) .disc
  · rename_i elsewhere
    split at h
    · cases h
    · rename_i t ht
      cases htoken : s.token
      · simp only [htoken, Bool.not_false, if_true] at h
        cases h
        exact .dead htoken .disc
      · cases href : (elsewhere || s.holds tp t.url)
        · simp only [htoken, href, Bool.not_true, Bool.false_eq_true, if_false, Bool.not_false,
            if_true] at h
          cases h
          obtain ⟨rfl, hholds⟩ := Bool.or_eq_false_iff.mp href
          exact .unreferenced htoken ht hholds
        · simp only [htoken, href, Bool.not_true, Bool.false_eq_true, if_false] at h
          cases h
          exact .check htoken ht href
  · cases h
    exact .call
  · cases h
    exact .released .disc
  · cases h

theorem retryNext_section {tp : Nat} {url : Bytes} {pc pc' : RetryPc}
    (h : retryNext s tp url pc a = some (s', pc', new)) :
    Section s self (.retry tp url pc) a s' (.retry tp url pc') new := by
  unfold retryNext at h
  split at h
  · split at h <;> cases h
    · exact .failed (by assumption)
    · exact .connected (Bool.eq_false_iff.mpr (by assumption))
  · cases h
    split
    · exact .established (by assumption)
    · exact .woken (Bool.eq_false_iff.mpr (by assumption))
  · split at h <;> cases h
    · exact .contended (by assumption) .retry
    · exact .acquired (Bool.eq_false_iff.mpr (by assumption)) .retry
  · cases htoken : s.token
    · simp only [htoken, Bool.not_false, if_true] at h
      cases h
      exact .dead htoken .retry
    · cases hwants : s.wants url
      · simp only [htoken, hwants, Bool.not_true, Bool.false_eq_true, if_false, Bool.not_false,
          if_true] at h
        cases h
        exact .unwanted htoken hwants
      · simp only [htoken, hwants, Bool.not_true, Bool.false_eq_true, if_false] at h
        cases h
        exact .passed htoken hwants
  · cases h
    exact .released .passing
  · cases h
    exact .go
  · cases h
    exact .released .retry
  · cases h

theorem next_section (h : program.next s self t a = some (s', t', new)) :
    Section s self t a s' t' new := by
  cases t with
  | childs nodes pc =>
    obtain ⟨r, hr, he⟩ := Option.map_eq_some_iff.mp h
    cases he
    exact childsNext_section hr
  | disc tp ec pc =>
    obtain ⟨r, hr, he⟩ := Option.map_eq_some_iff.mp h
    cases he
    exact discNext_section hr
  | retry tp url pc =>
    obtain ⟨r, hr, he⟩ := Option.map_eq_some_iff.mp h
    cases he
    exact retryNext_section hr
  | reconnect pc =>
    obtain ⟨r, hr, he⟩ := Option.map_eq_some_iff.mp h
    cases he
    unfold reconnectNext at hr
    split at hr
    · split at hr
      · cases hr
        exact .reconnect
      · cases hr
      · split at hr <;> cases hr
        · exact .reconnect
        · split
          · exact .reconnect
          · exact .reconnected (by assumption) (by assumption)
              (Bool.eq_false_iff.mpr (by assumption))
    · cases hr
  | destroy pc =>
    obtain ⟨r, hr, he⟩ := Option.map_eq_some_iff.mp h
    cases he
    unfold destroyNext at hr
    split at hr
    · split at hr <;> cases hr
      exact .lock (Bool.eq_false_iff.mpr (by assumption))
    · cases hr
      exact .expire
    · cases hr
      exact .released .destroy
    · cases hr

/-- What a section can do to the token and to the record of calls. -/
theorem shared_section (h : Section s self t a s' t' new) :
    (s.token = false → s'.token = false) ∧ s'.onDisconnect = s.onDisconnect ∧
      (s'.calls = s.calls ∨ ∃ tp ec, t = .disc tp ec .calling ∧
        s'.calls = s.calls ++ [(self, tp, ec)]) := by
  cases h with
  | apply =>
    rename_i nodes htoken
    obtain ⟨group, tps, hfinder⟩ := finder_foldl nodes ⟨s, ∅, []⟩
    rw [show reconcile s nodes = nodes.foldl onNode ⟨s, ∅, []⟩ from rfl, hfinder]
    exact ⟨id, rfl, .inl rfl⟩
  | call =>
    split
    · exact ⟨id, rfl, .inr ⟨_, _, rfl, rfl⟩⟩
    · exact ⟨id, rfl, .inl rfl⟩
  | expire => exact ⟨fun _ => rfl, rfl, .inl rfl⟩
  | _ => exact ⟨id, rfl, .inl rfl⟩

/-- A section starts reconnect attempts only. -/
theorem new_section (h : Section s self t a s' t' new) :
    ∀ u ∈ new, ∃ tp url, u = .retry tp url .connecting := by
  cases h with
  | apply => exact started_foldl _ _ (by simp)
  | check =>
    split
    · simp
    · simp
  | go => simp
  | _ => simp

section Mutex

/-- The thread is between its lock of `destroy_mutex_` and its unlock. -/
def inside : Thread → Bool
  | .childs _ .holding | .childs _ (.shutting _) | .childs _ (.leaving _) => true
  | .disc _ _ .holding | .disc _ _ .calling | .disc _ _ (.leaving _) => true
  | .retry _ _ .holding | .retry _ _ .passing | .retry _ _ (.leaving _) => true
  | .destroy .holding | .destroy .expired => true
  | _ => false

/-- A section keeps the mutex and its side of it, takes the mutex, or gives it back. -/
theorem inside_section (h : Section s self t a s' t' new) :
    (s'.locked = s.locked ∧ inside t' = inside t) ∨
    (s.locked = false ∧ s'.locked = true ∧ inside t = false ∧ inside t' = true) ∨
    (s'.locked = false ∧ inside t = true ∧ inside t' = false) := by
  cases h with
  | contended _ hc => cases hc <;> exact .inl ⟨rfl, rfl⟩
  | acquired hlocked hc => cases hc <;> exact .inr (.inl ⟨hlocked, rfl, rfl, rfl⟩)
  | dead _ hl => cases hl <;> exact .inl ⟨rfl, rfl⟩
  | released hr => cases hr <;> exact .inr (.inr ⟨rfl, rfl, rfl⟩)
  | apply =>
    rename_i nodes _
    obtain ⟨group, tps, hfinder⟩ := finder_foldl nodes ⟨s, ∅, []⟩
    rw [show reconcile s nodes = nodes.foldl onNode ⟨s, ∅, []⟩ from rfl, hfinder]
    exact .inl ⟨rfl, rfl⟩
  | call => split <;> exact .inl ⟨rfl, rfl⟩
  | lock hlocked => exact .inr (.inl ⟨hlocked, rfl, rfl, rfl⟩)
  | _ => exact .inl ⟨rfl, rfl⟩

/-- Whoever is inside has locked the mutex, and nobody else is. -/
def Exclusive (m : State) : Prop := m.threads.countP inside = if m.shared.locked then 1 else 0

theorem exclusive_step {m m' : State} {act : Action Thread Label} (he : Exclusive m)
    (h : program.step m act = some m') :
    Exclusive m' := by
  cases act with
  | spawn u =>
    obtain ⟨hstart, rfl⟩ := step_spawn h
    have hout : inside u = false := by
      change isStart u = true at hstart
      unfold isStart at hstart
      split at hstart
      · rfl
      · rfl
      · rfl
      · rfl
      · cases hstart
    simpa [Exclusive, List.countP_append, hout] using he
  | run i a =>
    obtain ⟨t, shared, t', new, ht, hn, rfl⟩ := step_run h
    have hnew : new.countP inside = 0 := by
      rw [List.countP_eq_zero]
      intro u hu
      obtain ⟨tp, url, rfl⟩ := new_section (next_section hn) u hu
      exact Bool.false_ne_true
    have hcount := countP_run inside t' ht
    unfold Exclusive at he ⊢
    rw [List.countP_append, hnew, Nat.add_zero]
    obtain ⟨hlocked, hside⟩ | ⟨hfree, hlocked, hout, hin⟩ | ⟨hfree, hin, hout⟩ :=
      inside_section (next_section hn)
    · rw [hside] at hcount
      dsimp only
      rw [hlocked]
      omega
    · simp only [hfree, hlocked, hout, hin, if_true, Bool.false_eq_true, if_false] at he hcount ⊢
      omega
    · have hle : m.threads.countP inside ≤ 1 := by
        rw [he]
        split <;> omega
      simp only [hfree, hin, hout, if_true, Bool.false_eq_true, if_false] at hcount ⊢
      omega

theorem exclusive_start (onDisconnect : Bool) (mode : EMode) (url : Bytes) :
    Exclusive (start onDisconnect mode url) := by
  cases mode with
  | single => rfl
  | zk => rfl

theorem exclusive_run {onDisconnect : Bool} {mode : EMode} {url : Bytes}
    {acts : List (Action Thread Label)} {m : State}
    (h : run program.step (start onDisconnect mode url) acts = some m) : Exclusive m :=
  run_invariant (exclusive_start onDisconnect mode url)
    (fun _ _ _ he hstep => exclusive_step he hstep) h

theorem Exclusive.locked {m : State} {i : Nat} (he : Exclusive m) (hi : m.threads[i]? = some t)
    (ht : inside t = true) :
    m.shared.locked = true := by
  have hpos : 0 < m.threads.countP inside :=
    List.countP_pos_iff.mpr ⟨t, List.mem_of_getElem? hi, ht⟩
  by_contra hfree
  rw [he, if_neg hfree] at hpos
  exact Nat.lt_irrefl 0 hpos

theorem Exclusive.alone {m : State} {i j : Nat} {u : Thread} (he : Exclusive m)
    (hi : m.threads[i]? = some t)
    (hj : m.threads[j]? = some u) (ht : inside t = true) (hij : i ≠ j) : inside u = false := by
  by_contra hu
  have hle : m.threads.countP inside ≤ 1 := by
    rw [he]
    split <;> omega
  obtain hlt | hlt := Nat.lt_or_gt_of_ne hij
  · have htwo := two_le_countP hi hj ht (Bool.eq_true_of_not_eq_false hu) hlt
    omega
  · have htwo := two_le_countP hj hi (Bool.eq_true_of_not_eq_false hu) ht hlt
    omega

end Mutex

end Ucorf.FinderSections
