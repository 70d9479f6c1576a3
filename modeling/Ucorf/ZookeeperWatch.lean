import Ucorf.ZookeeperFrames

/-!
# Watches

`Watch` takes the result of `__Watch` the wrong way round: with a session it drops the
key and reports an error when the children were fetched, and it keeps the key and
reports success when they were not. Without a session it registers, and a registered
callback gets every children list of its path until it is taken out.
-/
namespace Ucorf.ZookeeperWatch

open Ucorf.Message
open Ucorf.Scripts
open Ucorf.Threads
open Ucorf.Zookeeper
open Ucorf.ZookeeperFrames

/-- The calls that the second state has recorded since the first. -/
def newOps (s s' : ZookeeperClient) : List Op := s'.log.drop s.log.length

/-- A children list of `path` was obtained. -/
def Fetched (path : Bytes) (ops : List Op) (children : List Bytes) : Prop :=
  ∃ zh a, Op.getChildren zh path a ∈ ops ∧ a.ret = zOk ∧ a.children = children

def Watched (s : ZookeeperClient) (path : Bytes) (key cb : Nat) : Prop :=
  (s.watchersAt path)[key]? = some cb

section Entries

variable {path : Bytes} {key cb : Nat}

theorem watchersAt_setWatchers (s : ZookeeperClient) (p q : Bytes) (m : WatcherMap) :
    (s.setWatchers p m).watchersAt q = if p = q then m else s.watchersAt q := by
  simp only [ZookeeperClient.watchersAt, ZookeeperClient.setWatchers,
    Std.ExtTreeMap.getElem?_insert, Std.LawfulEqCmp.compare_eq_iff_eq]
  split <;> rfl

theorem watchersAt_notified (s : ZookeeperClient) (p q : Bytes) (f : Option Nat)
    (children : List Bytes) :
    (notified s p f children).watchersAt q = s.watchersAt q := by
  unfold notified
  cases f with
  | some f => rfl
  | none =>
    have hset := watchersAt_setWatchers s p q (s.watchersAt p)
    split at hset
    · subst q
      exact hset
    · exact hset

/-- Across the step the entry stays and its callback gets the lists that were fetched. -/
structure Served (path : Bytes) (key cb : Nat) (s s' : ZookeeperClient) : Prop where
  kept : Watched s path key cb → Watched s' path key cb
  grows : ∃ ops, s'.log = s.log ++ ops ∧
    (Watched s path key cb → ∀ children, Fetched path ops children →
    .notify cb children ∈ ops)

theorem served_of_ops {s s' : ZookeeperClient} (op : Op) (hw : s'.watchers = s.watchers)
    (hlog : s'.log = s.log ++ [op])
    (hop : ∀ zh a, op = .getChildren zh path a → a.ret ≠ zOk) : Served path key cb s s' := by
  constructor
  · intro hs
    rw [Watched, ZookeeperClient.watchersAt, hw]
    exact hs
  · refine ⟨[op], hlog, ?_⟩
    rintro - children ⟨zh, a, hmem, hret, -⟩
    rw [List.mem_singleton] at hmem
    exact absurd hret (hop zh a hmem.symm)

theorem served_core (s s' : ZookeeperClient) (hw : s'.watchers = s.watchers)
    (hlog : s'.log = s.log) :
    Served path key cb s s' := by
  constructor
  · intro hs
    rw [Watched, ZookeeperClient.watchersAt, hw]
    exact hs
  · refine ⟨[], by rw [hlog, List.append_nil], ?_⟩
    rintro - children ⟨zh, a, hmem, -⟩
    cases hmem

theorem served_trans (s t u : ZookeeperClient) (h : Served path key cb s t)
    (h' : Served path key cb t u) :
    Served path key cb s u := by
  obtain ⟨ops, hlog, hops⟩ := h.grows
  obtain ⟨ops', hlog', hops'⟩ := h'.grows
  refine ⟨fun hs => h'.kept (h.kept hs), ops ++ ops', by rw [hlog', hlog, List.append_assoc], ?_⟩
  rintro hs children ⟨zh, a, hmem, hret, hch⟩
  rw [List.mem_append] at hmem ⊢
  rcases hmem with hmem | hmem
  · exact .inl (hops hs children ⟨zh, a, hmem, hret, hch⟩)
  · exact .inr (hops' (h.kept hs) children ⟨zh, a, hmem, hret, hch⟩)

/-- All callbacks of the path are called with the list. -/
theorem served_notified (s : ZookeeperClient) (p : Bytes) (a : Answer) :
    Served path key cb s (notified (asked s p a) p none a.children) := by
  have hsame : (asked s p a).watchersAt p = s.watchersAt p := rfl
  constructor
  · intro hs
    rw [Watched, watchersAt_notified]
    exact hs
  · refine ⟨.getChildren s.zk p a :: (s.watchersAt p).toList.map fun kv =>
      .notify kv.2 a.children, ?_, ?_⟩
    · show s.log ++ [Op.getChildren s.zk p a] ++ _ = _
      rw [hsame, List.append_assoc]
      rfl
    · rintro hs children ⟨zh, b, hmem, -, rfl⟩
      rw [List.mem_cons] at hmem
      rcases hmem with hop | hmem
      · cases hop
        refine List.mem_cons_of_mem _ (List.mem_map.mpr ⟨(key, cb), ?_, rfl⟩)
        exact Std.ExtTreeMap.mem_toList_iff_getElem?_eq_some.mpr hs
      · obtain ⟨kv, -, hop⟩ := List.mem_map.mp hmem
        cases hop

theorem served_frame : FetchFrame (Served path key cb) none where
  refl s := served_core s s rfl rfl
  trans := served_trans
  create s _ _ _ := served_of_ops _ rfl rfl (by rintro zh a ⟨⟩)
  addRetry s _ := served_core s _ rfl rfl
  addNode s _ := served_core s _ rfl rfl
  asked s p a hret := by
    refine served_of_ops (.getChildren s.zk p a) rfl rfl ?_
    rintro zh b ⟨⟩
    exact hret
  notified s p a _ := served_notified s p a

end Entries

section Watch

variable {path : Bytes} {key cb : Nat}

/-- The three ways through `Watch`: the key is taken, there is no session, or the
children are fetched. -/
theorem watch_cases {s s' : ZookeeperClient} {answers : List Answer} {ok : Bool}
    (h : exec (watch path cb key) s answers = some (ok, s')) :
    (key ∈ s.watchersAt path ∧ ok = false ∧ s' = s.setWatchers path (s.watchersAt path)) ∨
    (key ∉ s.watchersAt path ∧ s.zk = none ∧ ok = true ∧
      s' = s.setWatchers path ((s.watchersAt path).insert key cb)) ∨
    (key ∉ s.watchersAt path ∧ s.zk ≠ none ∧ ∃ fetched t,
      exec (fetchChildren path (some cb))
        (s.setWatchers path ((s.watchersAt path).insert key cb)) answers =
        some (fetched, t) ∧ ok = !fetched ∧
      s' = if fetched then t.setWatchers path ((t.watchersAt path).erase key) else t) := by
  obtain ⟨m, p, hview, hrest⟩ := bind_eq_some.mp (exec_eq_some.mp h)
  obtain ⟨rfl, rfl⟩ := view_eq_some.mp hview
  simp only [Std.ExtTreeMap.contains_iff_mem] at hrest
  split at hrest
  · rename_i hkey
    obtain ⟨_, q, hset, hpure⟩ := bind_eq_some.mp hrest
    obtain ⟨rfl, rfl⟩ := pure_eq_some.mp hpure
    exact .inl ⟨hkey, rfl, congrArg Prod.fst (update_eq_some.mp hset)⟩
  · rename_i hkey
    obtain ⟨_, q, hset, hrest⟩ := bind_eq_some.mp hrest
    have hq := update_eq_some.mp hset
    subst hq
    obtain ⟨zk, q, hzk, hrest⟩ := bind_eq_some.mp hrest
    obtain ⟨rfl, rfl⟩ := view_eq_some.mp hzk
    split at hrest
    · rename_i hnone
      obtain ⟨rfl, hp⟩ := pure_eq_some.mp hrest
      exact .inr (.inl ⟨hkey, hnone, rfl, (congrArg Prod.fst hp).symm⟩)
    · rename_i hsome
      obtain ⟨fetched, ⟨t, rest⟩, hfetch, hrest⟩ := bind_eq_some.mp hrest
      refine .inr (.inr ⟨hkey, hsome, fetched, t, ?_⟩)
      cases fetched with
      | true =>
        obtain ⟨_, q, hset, hpure⟩ := bind_eq_some.mp hrest
        obtain ⟨rfl, rfl⟩ := pure_eq_some.mp hpure
        obtain ⟨hs, hanswers⟩ := Prod.ext_iff.mp (update_eq_some.mp hset)
        simp only at hs hanswers
        subst hanswers
        exact ⟨exec_eq_some.mpr hfetch, rfl, hs⟩
      | false =>
        obtain ⟨rfl, hp⟩ := pure_eq_some.mp hrest
        cases hp
        exact ⟨exec_eq_some.mpr hfetch, rfl, rfl⟩

/-- The method asks for no children. -/
def NoFetch (s s' : ZookeeperClient) : Prop :=
  ∃ ops, s'.log = s.log ++ ops ∧ ∀ zh p a, Op.getChildren zh p a ∉ ops

theorem noFetch_frame : Frame NoFetch where
  refl s := ⟨[], by simp, by simp⟩
  trans s t u h h' := by
    obtain ⟨ops, hlog, hops⟩ := h
    obtain ⟨ops', hlog', hops'⟩ := h'
    refine ⟨ops ++ ops', by rw [hlog', hlog, List.append_assoc], fun zh p a hmem => ?_⟩
    rcases List.mem_append.mp hmem with hmem | hmem
    · exact hops zh p a hmem
    · exact hops' zh p a hmem
  create s p flags ret := ⟨[.create s.zk p flags ret], rfl, by simp⟩
  addRetry s _ := ⟨[], (List.append_nil _).symm, by simp⟩
  addNode s _ := ⟨[], (List.append_nil _).symm, by simp⟩

/-- Calls that fetched nothing do not count. -/
theorem fetched_append {ops ops' : List Op}
    (h : ∀ zh a, Op.getChildren zh path a ∈ ops → a.ret ≠ zOk)
    {children : List Bytes} : Fetched path (ops ++ ops') children ↔ Fetched path ops' children := by
  constructor
  · rintro ⟨zh, a, hmem, hret, hch⟩
    rcases List.mem_append.mp hmem with hmem | hmem
    · exact absurd hret (h zh a hmem)
    · exact ⟨zh, a, hmem, hret, hch⟩
  · rintro ⟨zh, a, hmem, hrest⟩
    exact ⟨zh, a, List.mem_append_right _ hmem, hrest⟩

theorem not_fetched_nil {children : List Bytes} : ¬ Fetched path [] children := by
  rintro ⟨zh, a, hmem, -⟩
  cases hmem

/-- The loop of `__Watch` returns true exactly when a children list was obtained. -/
theorem watchLoop_fetched (f : Option Nat) (n : Nat) (p q : ZookeeperClient × List Answer)
    (fetched : Bool)
    (h : watchLoop path f n p = some (fetched, q)) :
    ∃ ops, q.1.log = p.1.log ++ ops ∧ (fetched = true ↔ ∃ children, Fetched path ops children) := by
  induction n generalizing p with
  | zero => cases h
  | succ n ih =>
    obtain ⟨a, m, hget, hrest⟩ := bind_eq_some.mp h
    obtain ⟨-, hm⟩ := zooGetChildren_eq_some hget
    have hlog : m.1.log = p.1.log ++ [.getChildren p.1.zk path a] := by
      rw [hm]
      rfl
    split at hrest
    · rename_i hok
      obtain ⟨_, m', hnotify, hpure⟩ := bind_eq_some.mp hrest
      obtain ⟨rfl, rfl⟩ := pure_eq_some.mp hpure
      have hm' := notifyWatchers_eq_some hnotify
      subst hm'
      obtain ⟨ops, hops⟩ : ∃ ops, (notified m.1 path f a.children).log = m.1.log ++ ops := by
        cases f <;> exact ⟨_, rfl⟩
      refine ⟨[.getChildren p.1.zk path a] ++ ops, by rw [hops, hlog, List.append_assoc],
        fun _ => ?_, fun _ => rfl⟩
      exact ⟨a.children, p.1.zk, a, by simp, hok, rfl⟩
    · rename_i hok
      have hfirst : ∀ zh b, Op.getChildren zh path b ∈ [Op.getChildren p.1.zk path a] →
          b.ret ≠ zOk := by
        intro zh b hmem
        rw [List.mem_singleton] at hmem
        cases hmem
        exact hok
      split at hrest
      · obtain ⟨ok, m', hcreate, hrest⟩ := bind_eq_some.mp hrest
        obtain ⟨ops, hops, hnone⟩ :=
          noFetch_frame.respects_createNode path .normal true _ _ _ hcreate
        have hboth : m'.1.log = p.1.log ++ ([.getChildren p.1.zk path a] ++ ops) := by
          rw [hops, hlog, List.append_assoc]
        split at hrest
        · obtain ⟨ops', hops', hiff⟩ := ih m' hrest
          refine ⟨[.getChildren p.1.zk path a] ++ (ops ++ ops'), ?_, ?_⟩
          · rw [hops', hboth, List.append_assoc, List.append_assoc]
          · simp only [fetched_append hfirst,
              fetched_append fun zh b hmem => absurd hmem (hnone zh path b), hiff]
        · obtain ⟨rfl, rfl⟩ := pure_eq_some.mp hrest
          refine ⟨_, hboth, ?_⟩
          rw [← List.append_nil ops]
          simp only [fetched_append hfirst,
            fetched_append fun zh b hmem => absurd hmem (hnone zh path b), not_fetched_nil]
          simp
      · obtain ⟨rfl, rfl⟩ := pure_eq_some.mp hrest
        refine ⟨[.getChildren p.1.zk path a] ++ [], by rw [hlog, List.append_nil], ?_⟩
        simp only [fetched_append hfirst, not_fetched_nil]
        simp

theorem fetchChildren_fetched {f : Option Nat} {s s' : ZookeeperClient} {answers : List Answer}
    {fetched : Bool}
    (hzk : s.zk ≠ none) (h : exec (fetchChildren path f) s answers = some (fetched, s')) :
    ∃ ops, s'.log = s.log ++ ops ∧ (fetched = true ↔ ∃ children, Fetched path ops children) := by
  obtain ⟨zk, p, hview, hrest⟩ := bind_eq_some.mp (exec_eq_some.mp h)
  obtain ⟨rfl, rfl⟩ := view_eq_some.mp hview
  rw [if_neg hzk] at hrest
  exact watchLoop_fetched f _ _ _ fetched hrest

/-- What `Watch` has asked for with a session, in the states around it. -/
theorem fetched_iff_newOps {s s' t : ZookeeperClient} {answers : List Answer} {fetched : Bool}
    (hzk : s.zk ≠ none)
    (hfetch : exec (fetchChildren path (some cb))
      (s.setWatchers path ((s.watchersAt path).insert key cb)) answers = some (fetched, t))
    (hs' : s' = if fetched then t.setWatchers path ((t.watchersAt path).erase key) else t) :
    fetched = true ↔ ∃ children, Fetched path (newOps s s') children := by
  have hzk' : (s.setWatchers path ((s.watchersAt path).insert key cb)).zk ≠ none := hzk
  obtain ⟨ops, hlog, hiff⟩ := fetchChildren_fetched hzk' hfetch
  have hlog' : s'.log = t.log := by
    rw [hs']
    split <;> rfl
  have hnew : newOps s s' = ops := by
    rw [newOps, hlog', hlog]
    exact List.drop_left
  rw [hnew]
  exact hiff

end Watch

section Runs

variable {path : Bytes} {key cb : Nat}

/-- The entry stays. -/
def Kept (path : Bytes) (key cb : Nat) (s s' : ZookeeperClient) : Prop :=
  Watched s path key cb → Watched s' path key cb

theorem kept_core (s s' : ZookeeperClient) (h : s'.watchers = s.watchers) :
    Kept path key cb s s' := by
  intro hs
  rw [Watched, ZookeeperClient.watchersAt, h]
  exact hs

theorem kept_frame (f : Option Nat) : FetchFrame (Kept path key cb) f where
  refl _ := id
  trans _ _ _ h h' := h' ∘ h
  create s _ _ _ := kept_core s _ rfl
  addRetry s _ := kept_core s _ rfl
  addNode s _ := kept_core s _ rfl
  asked s _ _ _ := kept_core s _ rfl
  notified s p a _ hs := by
    rw [Watched, watchersAt_notified]
    exact hs

theorem kept_setWatchers {s : ZookeeperClient} {p : Bytes} {m : WatcherMap}
    (h : p = path → (s.watchersAt path)[key]? = some cb → m[key]? = some cb) :
    Kept path key cb s (s.setWatchers p m) := by
  intro hs
  rw [Watched, watchersAt_setWatchers]
  split
  · exact h (by assumption) hs
  · exact hs

/-- Other calls of `Watch` leave the entry alone, since they add a key that is not there. -/
theorem kept_watch {s s' : ZookeeperClient} {p : Bytes} {f k : Nat}
    {answers : List Answer} {ok : Bool}
    (h : exec (watch p f k) s answers = some (ok, s')) : Kept path key cb s s' := by
  have hne (hkey : k ∉ s.watchersAt p) (hp : p = path) (hs : (s.watchersAt path)[key]? = some cb) :
      k ≠ key := by
    rintro rfl
    rw [hp] at hkey
    rw [Std.ExtTreeMap.getElem?_eq_none hkey] at hs
    cases hs
  have hinsert (hkey : k ∉ s.watchersAt p) :
      Kept path key cb s (s.setWatchers p ((s.watchersAt p).insert k f)) := by
    refine kept_setWatchers fun hp hs => ?_
    rw [Std.ExtTreeMap.getElem?_insert, if_neg (by simpa using hne hkey hp hs), hp]
    exact hs
  rcases watch_cases h with ⟨-, -, rfl⟩ | ⟨hkey, -, -, rfl⟩ | ⟨hkey, -, fetched, t, hfetch, -, rfl⟩
  · refine kept_setWatchers fun hp hs => ?_
    rw [hp]
    exact hs
  · exact hinsert hkey
  · intro hs
    have ht : Watched t path key cb :=
      ((kept_frame (some f)).respects_fetchChildren p).exec hfetch (hinsert hkey hs)
    split
    · refine kept_setWatchers (fun hp hs' => ?_) ht
      rw [Std.ExtTreeMap.getElem?_erase, if_neg (by simpa using hne hkey hp hs), hp]
      exact hs'
    · exact ht

theorem kept_step {s s' : ZookeeperClient} {act : Action} (hact : act ≠ .unwatch path key)
    (h : step s act = some s') :
    Kept path key cb s s' := by
  refine (kept_frame none).step_respects (fun s s' hw _ _ => kept_core s s' hw)
    (fun s _ _ => kept_core s _ rfl) ?_ ?_ h
  · intro p f k answers _ ok hw
    exact kept_watch hw
  · rintro p k rfl u hu
    have hs' := congrArg Prod.fst (update_eq_some.mp (exec_eq_some.mp hu))
    simp only at hs'
    subst hs'
    split
    · exact id
    · rename_i m hm
      refine kept_setWatchers fun hp hs => ?_
      subst hp
      have hk : k ≠ key := by
        rintro rfl
        exact hact rfl
      rw [Std.ExtTreeMap.getElem?_erase, if_neg (by simpa using hk)]
      simpa [ZookeeperClient.watchersAt, hm] using hs

theorem kept_run {s t : ZookeeperClient} {acts : List Action} (hacts : .unwatch path key ∉ acts)
    (h : run step s acts = some t) : Kept path key cb s t := by
  induction acts generalizing s with
  | nil =>
    cases h
    exact id
  | cons act acts ih =>
    rw [run_cons, Option.bind_eq_some_iff] at h
    obtain ⟨m, hm, hrest⟩ := h
    rw [List.mem_cons, not_or] at hacts
    exact fun hs => ih hacts.2 hrest (kept_step (Ne.symm hacts.1) hm hs)

/-- An `OnWatch` step calls a registered callback with every list of its path. -/
theorem served_onWatch {s s' : ZookeeperClient} {answers : List Answer}
    (h : step s (.onWatch answers) = some s') :
    Served path key cb s s' := by
  refine served_frame.step_respects (fun s s' hw _ hlog => served_core s s' hw hlog)
    (fun s p ret => served_of_ops (.delete s.zk p ret) rfl rfl (by rintro zh a ⟨⟩)) ?_ ?_ h
  · rintro _ _ _ _ ⟨⟩
  · rintro _ _ ⟨⟩

/-- Until `Unwatch`, every `OnWatch` step that obtains children of the path calls `cb`. -/
def KeepsNotifying (path : Bytes) (key cb : Nat) (s : ZookeeperClient) : Prop :=
  ∀ acts m answers m', .unwatch path key ∉ acts → run step s acts = some m →
  step m (.onWatch answers) = some m' →
    ∀ children, Fetched path (newOps m m') children → .notify cb children ∈ newOps m m'

theorem keepsNotifying {s : ZookeeperClient} (hs : Watched s path key cb) :
    KeepsNotifying path key cb s := by
  intro acts m answers m' hacts hrun hstep children hfetched
  have hserved : Served path key cb m m' := served_onWatch hstep
  obtain ⟨ops, hlog, hops⟩ := hserved.grows
  have hnew : newOps m m' = ops := by
    rw [newOps, hlog, List.drop_left]
  rw [hnew] at hfetched ⊢
  exact hops (kept_run hacts hrun hs) children hfetched

/-- What is asked of a `Watch` of a key that is not there yet. -/
structure WatchOk (path : Bytes) (key cb : Nat) (s : ZookeeperClient) (ok : Bool)
    (s' : ZookeeperClient) : Prop where
  success : (s.zk = none ∨ ∃ children, Fetched path (newOps s s') children) → ok = true ∧
    KeepsNotifying path key cb s'
  failure : s.zk ≠ none → (¬ ∃ children, Fetched path (newOps s s') children) →
    ok = false ∧ key ∉ s'.watchersAt path

/-- `Watch` does what is asked if and only if there is no session. -/
theorem watchOk_iff (s s' : ZookeeperClient) (path : Bytes) (cb key : Nat)
    (answers : List Answer) (ok : Bool)
    (hkey : key ∉ s.watchersAt path) (h : exec (watch path cb key) s answers = some (ok, s')) :
    WatchOk path key cb s ok s' ↔ s.zk = none := by
  rcases watch_cases h with ⟨hmem, -⟩ | ⟨-, hzk, rfl, rfl⟩ | ⟨-, hzk, fetched, t, hfetch, hok, hs'⟩
  · exact absurd hmem hkey
  · refine ⟨fun _ => hzk, fun _ => ⟨fun _ => ⟨rfl, ?_⟩, fun hne => absurd hzk hne⟩⟩
    refine keepsNotifying ?_
    rw [Watched, watchersAt_setWatchers, if_pos rfl]
    simp
  · constructor
    · intro hw
      have hiff := fetched_iff_newOps hzk hfetch hs'
      cases fetched with
      | true =>
        -- the children were fetched, and `Watch` reports an error
        have hgood := (hw.success (.inr (hiff.mp rfl))).1
        rw [hok] at hgood
        cases hgood
      | false =>
        -- nothing was fetched, and `Watch` reports success
        have hnone : ¬ ∃ children, Fetched path (newOps s s') children :=
          fun hgot => Bool.false_ne_true (hiff.mpr hgot)
        have hbad := (hw.failure hzk hnone).1
        rw [hok] at hbad
        cases hbad
    · intro hnone
      exact absurd hnone hzk

/-- The path `/a`. -/
def samplePath : Bytes := [47, 97]

theorem watchOk_init : ∃ s', exec (watch samplePath 7 1) .init [] = some (true, s') ∧
    WatchOk samplePath 1 7 .init true s' := by
  have hexec : exec (watch samplePath 7 1) .init [] =
      some (true, ZookeeperClient.init.setWatchers samplePath
        ((ZookeeperClient.init.watchersAt samplePath).insert 1 7)) := by
    rfl
  refine ⟨_, hexec, (watchOk_iff _ _ _ _ _ _ _ ?_ hexec).mpr rfl⟩
  simp [ZookeeperClient.init, ZookeeperClient.watchersAt]

/-- The session is up. -/
def sessionRun : List Action :=
  [.connect true, .enqueue ⟨0, zooSessionEvent, zooConnectedState, []⟩, .onWatch []]

/-- With a session and an answer of the server the watcher is thrown out again. -/
theorem watch_thrown_out :
    ¬ ∀ (acts : List Action) (s s' : ZookeeperClient) (path : Bytes) (cb key : Nat)
      (answers : List Answer) (ok : Bool),
      run step .init acts = some s → key ∉ s.watchersAt path →
    exec (watch path cb key) s answers = some (ok, s') →
      WatchOk path key cb s ok s' := by
  intro hall
  obtain ⟨s, hs, hend⟩ := run_exists step .init sessionRun
    (fun s => decide (1 ∉ s.watchersAt samplePath) &&
      (exec (watch samplePath 7 1) s [⟨zOk, [[98]]⟩]).any
      fun r : Bool × ZookeeperClient => decide (r.1 = false ∧
        Op.getChildren (some 0) samplePath ⟨zOk, [[98]]⟩ ∈ newOps s r.2)) (by decide +kernel)
  obtain ⟨hkey, hend⟩ := (Bool.and_eq_true _ _).mp hend
  obtain ⟨⟨ok, s'⟩, h, hr⟩ := (Option.any_eq_true _ _).mp hend
  obtain ⟨hok, hmem⟩ := of_decide_eq_true hr
  have hw := hall _ s s' samplePath 7 1 _ ok hs (of_decide_eq_true hkey) h
  have hgot := (hw.success (.inr ⟨_, _, _, hmem, rfl, rfl⟩)).1
  rw [show ok = false from hok] at hgot
  cases hgot

end Runs

end Ucorf.ZookeeperWatch
