import Ucorf.Discovery
import Ucorf.Leases
import Ucorf.ZookeeperNodes

/-!
# From the registration to the discovery

Servers register their urls through zookeeper clients of their own, and the finder of an
rpc client looks for them through another one. The nodes are leases: an ephemeral node
is its session's, and goes with it.
-/
namespace Ucorf.Registration

open Ucorf.Message
open Ucorf.Scripts
open Ucorf.Threads
open Ucorf.Leases
open Ucorf.Zookeeper
open Ucorf.ZookeeperUrl
open Ucorf.ZookeeperFrames
open Ucorf.ZookeeperCreates
open Ucorf.ZookeeperRegister
open Ucorf.ZookeeperUnregister
open Ucorf.ZookeeperRetries
open Ucorf.ZookeeperNodes

section Clients

variable {path : Bytes} {s s' : ZookeeperClient} {answers : List Answer}
    {u : Unit} {ok : Bool} {zh : Nat}

/-- The client keeps and has created ephemeral nodes of these paths only. -/
structure Within (wanted : Bytes → Prop) (s : ZookeeperClient) : Prop where
  nodes : ∀ path ∈ s.ephemeralNodes, wanted path
  created : ∀ zh path ret, .create zh path zooEphemeral ret ∈ s.log → wanted path

variable {wanted : Bytes → Prop}

def Keeps (wanted : Bytes → Prop) (s s' : ZookeeperClient) : Prop :=
    Within wanted s → Within wanted s'

theorem keeps_of_ops (ops : List Op) (hnodes : s'.ephemeralNodes = s.ephemeralNodes)
    (hlog : s'.log = s.log ++ ops)
    (hops : ∀ zh path ret, .create zh path zooEphemeral ret ∈ ops → wanted path) :
    Keeps wanted s s' := by
  intro hw
  refine ⟨by rw [hnodes]; exact hw.nodes, fun zh path ret hmem => ?_⟩
  rw [hlog, List.mem_append] at hmem
  exact hmem.elim (hw.created zh path ret) (hops zh path ret)

theorem keeps_core (hnodes : s'.ephemeralNodes = s.ephemeralNodes) (hlog : s'.log = s.log) :
    Keeps wanted s s' :=
  keeps_of_ops [] hnodes (by rw [hlog, List.append_nil]) (by simp)

theorem keeps_frame (wanted : Bytes → Prop) (cb : Option Nat) :
    PlainFetchFrame (Keeps wanted) cb where
  refl s := id
  trans s t u h h' := h' ∘ h
  create s p flags ret hflags := by
    refine keeps_of_ops [.create s.zk p flags ret] rfl rfl ?_
    intro zh path ret' hmem
    cases List.mem_singleton.mp hmem
    exact absurd rfl hflags
  asked s p a _ := keeps_of_ops [.getChildren s.zk p a] rfl rfl (by simp)
  notified s p a _ := by
    have hasked : Keeps wanted s (asked s p a) :=
      keeps_of_ops [.getChildren s.zk p a] rfl rfl (by simp)
    have hnotified : Keeps wanted (asked s p a) (notified (asked s p a) p cb a.children) := by
      cases cb with
      | some f => exact keeps_of_ops [.notify f a.children] rfl rfl (by simp)
      | none =>
        refine keeps_of_ops
          (((asked s p a).watchersAt p).toList.map fun kv => .notify kv.2 a.children) rfl rfl ?_
        simp
    exact hnotified ∘ hasked

theorem within_setWatchers (s : ZookeeperClient) (p : Bytes) (m : WatcherMap) :
    Keeps wanted s (s.setWatchers p m) :=
  keeps_core rfl rfl

theorem within_addNode (hw : Within wanted s) (hpath : wanted path) :
    Within wanted (s.addNode path) := by
  refine ⟨fun p hp => ?_, hw.created⟩
  rw [ZookeeperClient.addNode, Std.ExtTreeSet.mem_insert, Std.LawfulEqCmp.compare_eq_iff_eq] at hp
  rcases hp with rfl | hp
  · exact hpath
  · exact hw.nodes p hp

/-- The creates of the parents are of other kinds of nodes. -/
theorem calls_plain {zk : Option Nat} {paths : List Bytes} {ops : List Op}
    (h : Calls zk paths answers ops ok) : ∀ zh p ret, .create zh p zooEphemeral ret ∉ ops := by
  intro zh p ret hmem
  obtain ⟨q, -, ret', hop⟩ := calls_creates h _ hmem
  cases hop

theorem within_delayed (h : Delayed path s answers ok s') (hpath : wanted path) :
    Keeps wanted s s' := by
  intro hw
  have hadd := within_addNode hw hpath
  have hleaf {ops : List Op} {used : List Answer} {done : Bool} {ret : Int}
      (hcalls : Calls s.zk (parents path) used ops done) (zh : Option Nat) (p : Bytes) (ret' : Int)
      (hmem : .create zh p zooEphemeral ret' ∈ ops ++ [.create s.zk path zooEphemeral ret]) :
      wanted p := by
    rcases List.mem_append.mp hmem with hmem | hmem
    · exact absurd hmem (calls_plain hcalls zh p ret')
    · cases List.mem_singleton.mp hmem
      exact hpath
  cases h with
  | offline h => exact hadd
  | parent h hcalls =>
    exact keeps_of_ops (s := s.addNode path) _ rfl rfl
      (fun zh p ret hmem => absurd hmem (calls_plain hcalls zh p ret)) hadd
  | refused h hcalls ha => exact keeps_of_ops (s := s.addNode path) _ rfl rfl (hleaf hcalls) hadd
  | created h hcalls ha => exact keeps_of_ops (s := s.addNode path) _ rfl rfl (hleaf hcalls) hadd
  | existing h hcalls ha => exact keeps_of_ops (s := s.addNode path) _ rfl rfl (hleaf hcalls) hadd

theorem within_createAll {nodes : List Bytes} (hnodes : ∀ path ∈ nodes, wanted path)
    {p q : ZookeeperClient × List Answer} (h : createAll nodes p = some (u, q)) :
    Keeps wanted p.1 q.1 := by
  induction nodes generalizing p with
  | nil =>
    obtain ⟨-, rfl⟩ := pure_eq_some.mp h
    exact id
  | cons node rest ih =>
    obtain ⟨ok, m, hnode, hrest⟩ := bind_eq_some.mp h
    obtain ⟨used, -, hdelayed⟩ := delayed_of_eq_some hnode
    have hstep : Keeps wanted p.1 m.1 := within_delayed hdelayed (hnodes node List.mem_cons_self)
    exact ih (fun path hmem => hnodes path (List.mem_cons_of_mem _ hmem)) hrest ∘ hstep

theorem within_onWatch {e : Event} (h : exec (onWatch e) s answers = some (u, s')) :
    Keeps wanted s s' := by
  have hf := keeps_frame wanted none
  intro hw
  unfold onWatch at h
  split at h
  · split at h
    · obtain ⟨_, m₀, hset, hrest⟩ := bind_eq_some.mp (exec_eq_some.mp h)
      obtain rfl := update_eq_some.mp hset
      obtain ⟨paths, m₁, hview, hrest⟩ := bind_eq_some.mp hrest
      obtain ⟨rfl, rfl⟩ := view_eq_some.mp hview
      obtain ⟨_, m₂, hfetch, hrest⟩ := bind_eq_some.mp hrest
      obtain ⟨nodes, m₃, hview, hrest⟩ := bind_eq_some.mp hrest
      obtain ⟨rfl, rfl⟩ := view_eq_some.mp hview
      have hset : Within wanted { s with zk := some e.zh } := keeps_core (s := s) rfl rfl hw
      have hfetched := hf.respects_fetchAll _ _ _ _ hfetch hset
      exact within_createAll
        (fun path hmem => hfetched.nodes path (Std.ExtTreeSet.mem_toList.mp hmem)) hrest hfetched
    · cases update_eq_some.mp (exec_eq_some.mp h)
      unfold onLost
      split <;> exact keeps_core (s := s) rfl rfl hw
  · split at h
    · obtain ⟨ok, m, hfetch, hpure⟩ := bind_eq_some.mp (exec_eq_some.mp h)
      obtain ⟨-, rfl⟩ := pure_eq_some.mp hpure
      exact hf.respects_fetchChildren e.path _ _ _ hfetch hw
    · obtain ⟨-, hp⟩ := pure_eq_some.mp (exec_eq_some.mp h)
      cases hp
      exact hw

theorem within_retry {p : Bytes} (h : exec (retry p) s answers = some (u, s')) :
    Keeps wanted s s' := by
  intro hw
  obtain ⟨asks, m, hview, hrest⟩ := bind_eq_some.mp (exec_eq_some.mp h)
  obtain ⟨hasks, rfl⟩ := view_eq_some.mp hview
  split at hrest
  · rename_i hyes
    obtain ⟨ok, m', hdelay, hpure⟩ := bind_eq_some.mp hrest
    obtain ⟨-, rfl⟩ := pure_eq_some.mp hpure
    obtain ⟨used, -, hdelayed⟩ := delayed_of_eq_some hdelay
    refine within_delayed hdelayed (hw.nodes p ?_) hw
    rw [← hasks] at hyes
    exact Std.ExtTreeSet.contains_iff_mem.mp hyes
  · obtain ⟨-, hp⟩ := pure_eq_some.mp hrest
    cases hp
    exact hw

theorem within_createNode {p : Bytes} {flags : CreateNodeFlags} {recursive : Bool}
    (hp : flags = .ephemeral → wanted p)
    (h : exec (createNode p flags recursive) s answers = some (ok, s')) : Keeps wanted s s' := by
  by_cases hflags : flags = .ephemeral
  · subst hflags
    obtain ⟨used, -, hcreates⟩ := createNode_eq_some.mp (exec_eq_some.mp h)
    have hleaf {ops : List Op} {paths : List Bytes} {used : List Answer} {done : Bool} {ret : Int}
        (hcalls : Calls s.zk paths used ops done) (zh : Option Nat) (q : Bytes) (ret' : Int)
        (hmem : .create zh q zooEphemeral ret' ∈ ops ++
          [.create s.zk p (createFlags .ephemeral) ret]) : wanted q := by
      rcases List.mem_append.mp hmem with hmem | hmem
      · exact absurd hmem (calls_plain hcalls zh q ret')
      · cases List.mem_singleton.mp hmem
        exact hp rfl
    cases hcreates with
    | offline h => exact id
    | parent h hcalls =>
      exact keeps_of_ops _ rfl rfl fun zh q ret hmem => absurd hmem (calls_plain hcalls zh q ret)
    | refused h hcalls ha => exact keeps_of_ops _ rfl rfl (hleaf hcalls)
    | made h hcalls ha =>
      intro hw
      exact keeps_of_ops (s := s.addNode p) _ rfl rfl (hleaf hcalls) (within_addNode hw (hp rfl))
  · exact ((keeps_frame wanted none).respects_createNode p hflags recursive).exec h

theorem within_step {act : Action} (hact : ∀ path, registers path act → wanted path)
    (h : step s act = some s') : Keeps wanted s s' := by
  have hf := keeps_frame wanted none
  cases step_cases h with
  | connect ok hleft =>
    unfold connect
    split <;> exact keeps_core rfl rfl
  | enqueue hopen hroom => exact keeps_core rfl rfl
  | onWatch hchan ht => exact fun hw => within_onWatch ht (keeps_core (s := s) rfl rfl hw)
  | retry hmem ht => exact fun hw => within_retry ht (keeps_core (s := s) rfl rfl hw)
  | @watch p cb key _ _ _ ht =>
    exact ((keeps_frame wanted (some cb)).respects_watch within_setWatchers p key).exec ht
  | @unwatch p key _ _ ht => exact (hf.respects_unwatch within_setWatchers p key).exec ht
  | @createNode p flags _ _ _ _ ht =>
      exact within_createNode (fun hflags => hact p (by simp [registers, hflags])) ht
  | @delayCreateEphemeralNode p _ _ _ ht =>
    exact within_delayed (delayed_of_exec ht) (hact p (by simp [registers]))
  | @deleteNode p _ _ _ ht =>
    have hdelete (s : ZookeeperClient) (path : Bytes) (ret : Int) :
        Keeps wanted s (s.addOp (.delete s.zk path ret)) :=
      keeps_of_ops [.delete s.zk path ret] rfl rfl (by simp)
    exact (hf.respects_deleteNode hdelete p).exec ht

/-- A client creates ephemeral nodes of the paths only that it was given. -/
theorem within_run {acts : List Action} (h : run step .init acts = some s) :
    Within (fun path => ∃ act ∈ acts, registers path act) s := by
  have hguard : Guarded step (fun _ act => act ∈ acts) .init acts := by
    intro pre act post m hacts _
    simp [hacts]
  refine guarded_invariant (I := Within fun path => ∃ act ∈ acts, registers path act) ?_ ?_ hguard h
  · exact ⟨fun path hmem => by simp [ZookeeperClient.init] at hmem, by rintro zh path ret ⟨⟩⟩
  · intro m act m' hm hact hstep
    exact within_step (fun path hpath => ⟨act, hact, hpath⟩) hstep hm

/-- A path that was given stays. -/
theorem registered_kept {acts : List Action} (h : run step .init acts = some s)
    (hpath : ∃ act ∈ acts, registers path act) (hacts : ∀ act ∈ acts, Reserved path act) :
    path ∈ s.ephemeralNodes := by
  obtain ⟨act, hmem, hact⟩ := hpath
  obtain ⟨pre, post, rfl⟩ := List.append_of_mem hmem
  rw [run_append, Option.bind_eq_some_iff] at h
  obtain ⟨m, -, hrest⟩ := h
  rw [run_cons, Option.bind_eq_some_iff] at hrest
  obtain ⟨m', hstep, hpost⟩ := hrest
  refine nodesKept_run hpost path ?_
  cases step_cases hstep with
  | @delayCreateEphemeralNode p _ _ _ ht =>
    have hp : p = path := by simpa [registers] using hact
    rw [(delayed_of_exec ht).nodes, Std.ExtTreeSet.mem_insert, Std.LawfulEqCmp.compare_eq_iff_eq]
    exact .inl hp
  | createNode ht =>
    obtain ⟨hp, hflags⟩ : _ = path ∧ _ = CreateNodeFlags.ephemeral := by
      simpa [registers] using hact
    exact absurd hflags (hacts _ hmem hp)
  | _ => cases hact

/-- The session's own create is in the record. -/
theorem created_of_holds {log : List Op} (h : holds zh path log = true) :
    .create (some zh) path zooEphemeral zOk ∈ log := by
  by_contra hnot
  have hfold {held : Bool} {ops : List Op} (hops : .create (some zh) path zooEphemeral zOk ∉ ops)
      (hheld : ops.foldl (holdsStep zh path) held = true) : held = true := by
    induction ops generalizing held with
    | nil => exact hheld
    | cons op ops ih =>
      rw [List.mem_cons, not_or] at hops
      have hstep := ih hops.2 hheld
      cases op with
      | create h p flags ret =>
        rw [holdsStep, Bool.or_eq_true] at hstep
        rcases hstep with hheld | hnew
        · exact hheld
        · simp only [Bool.and_eq_true, beq_iff_eq] at hnew
          obtain ⟨⟨⟨rfl, rfl⟩, rfl⟩, rfl⟩ := hnew
          exact absurd rfl hops.1
      | delete h p ret =>
        rw [holdsStep, Bool.and_eq_true] at hstep
        exact hstep.1
      | getChildren h p a => exact hstep
      | notify f children => exact hstep
  exact absurd (hfold hnot h) Bool.false_ne_true

end Clients

/-- The node that `Register` makes for a server in a directory. -/
def nodePath (dir node : Bytes) : Bytes := dir ++ [slash] ++ node

section Transports

variable {path : Bytes} {s s' : ZookeeperClient} {used rest : List Answer} {ok : Bool}

theorem delayCreateLeaf_of_answer {path : Bytes} {s : ZookeeperClient}
    (a : Answer) (rest : List Answer) : delayCreateLeaf path (s, a :: rest) =
      let t := logged s [.create s.zk path zooEphemeral a.ret]
      if a.ret = zOk then some (true, (t, rest)) else
        if a.ret = zNodeExists then some (true, (t.addRetry path, rest))
          else some (false, (t, rest)) := by
  have hcreate : zooCreate path zooEphemeral (s, a :: rest) =
      some (a.ret, (logged s [.create s.zk path zooEphemeral a.ret], rest)) :=
    zooCreate_eq_some.mpr ⟨a, rfl, rfl, rfl⟩
  by_cases hok : a.ret = zOk
  · rw [if_pos hok]
    refine bind_eq_some.mpr ⟨a.ret, _, hcreate, ?_⟩
    rw [if_pos hok]
    rfl
  · rw [if_neg hok]
    by_cases hexists : a.ret = zNodeExists
    · rw [if_pos hexists]
      refine bind_eq_some.mpr ⟨a.ret, _, hcreate, ?_⟩
      rw [if_neg hok, if_pos hexists]
      rfl
    · rw [if_neg hexists]
      refine bind_eq_some.mpr ⟨a.ret, _, hcreate, ?_⟩
      rw [if_neg hok, if_neg hexists]
      rfl

/-- Each way through `DelayCreateEphemeralNode` can be gone. -/
theorem exec_of_delayed (h : Delayed path s used ok s') :
    exec (delayCreateEphemeralNode path) s used = some (ok, s') := by
  refine exec_eq_some.mpr
    (bind_eq_some.mpr ⟨(), (s.addNode path, used), update_eq_some.mpr rfl, ?_⟩)
  apply behindParents_eq_some.mpr
  cases h with
  | offline h => exact .inl ⟨h, rfl, rfl⟩
  | parent h hcalls => exact .inr ⟨h, _, _, [], (List.append_nil _).symm, .inl ⟨hcalls, rfl, rfl⟩⟩
  | @refused used ops a h hcalls ha =>
    refine .inr ⟨h, used, ops, [a], rfl, .inr ⟨hcalls, ?_⟩⟩
    obtain ⟨hok, hexists⟩ := not_or.mp ha
    rw [delayCreateLeaf_of_answer, if_neg hok, if_neg hexists, logged_logged]
    rfl
  | @created used ops a h hcalls ha =>
    refine .inr ⟨h, used, ops, [a], rfl, .inr ⟨hcalls, ?_⟩⟩
    rw [delayCreateLeaf_of_answer, if_pos ha, logged_logged]
    rfl
  | @existing used ops a h hcalls ha =>
    refine .inr ⟨h, used, ops, [a], rfl, .inr ⟨hcalls, ?_⟩⟩
    have hok : a.ret ≠ zOk := by rw [ha]; decide
    rw [delayCreateLeaf_of_answer, if_neg hok, if_pos ha, logged_logged]
    rfl

/-- The host of the url, and the path that a server gets under the url's directory. -/
def hostOf (url : Bytes) : Bytes := (parseZookeeperUrl url).1

def pathFor (url addr : Bytes) : Bytes :=
    nodePath (parseZookeeperUrl url).2 (url2ZookeeperNode addr)

variable {url addr : Bytes} {r r' : Registered} {mgr mgr' : ZookeeperClientMgr}
    {answers : List Answer}
variable {done left : List Bytes}

/-- `Register` has a host to ask, and a name for the transport's node. -/
def Asks (url addr : Bytes) : Prop := hostOf url ≠ [] ∧ url2ZookeeperNode addr ≠ []

/-- `Register` gives up before it asks for a client, or it is `DelayCreateEphemeralNode` of it. -/
theorem register_cases (h : register r url addr (mgr, answers) = some ((ok, r'), (mgr', rest))) :
    (¬ Asks url addr ∧ ok = false ∧ r' = r ∧ mgr' = mgr) ∨
    ∃ used client, Asks url addr ∧
      exec (delayCreateEphemeralNode (pathFor url addr))
        (getZookeeperClient mgr (hostOf url)) used =
        some (ok, client) ∧
      mgr' = mgr.insert (hostOf url) client ∧
      r' = if ok then r.insert (hostOf url) (pathFor url addr) else r := by
  simp only [register] at h
  split at h
  · rename_i hhost
    obtain ⟨hr, hp⟩ := pure_eq_some.mp h
    cases hr
    cases hp
    exact .inl ⟨fun hasks => hasks.1 hhost, rfl, rfl, rfl⟩
  · rename_i hhost
    split at h
    · rename_i hnode
      obtain ⟨hr, hp⟩ := pure_eq_some.mp h
      cases hr
      cases hp
      exact .inl ⟨fun hasks => hasks.2 hnode, rfl, rfl, rfl⟩
    · rename_i hnode
      obtain ⟨done, q, hclient, hrest⟩ := bind_eq_some.mp h
      obtain ⟨hr, rfl⟩ := pure_eq_some.mp hrest
      unfold onClient at hclient
      split at hclient
      · cases hclient
      · rename_i b client left hrun
        cases hclient
        obtain ⟨used, -, hdelayed⟩ := delayed_of_eq_some hrun
        have hexec := exec_of_delayed hdelayed
        cases done with
        | true =>
          cases hr
          exact .inr ⟨used, client, ⟨hhost, hnode⟩, hexec, rfl, rfl⟩
        | false =>
          cases hr
          exact .inr ⟨used, client, ⟨hhost, hnode⟩, hexec, rfl, rfl⟩

theorem mem_insert (dest : Bytes × Bytes) (r : Registered) (host path : Bytes) :
    dest ∈ (r.insert host path).destinations ↔ dest ∈ r.destinations ∨ dest = (host, path) := by
  rw [Registered.insert, List.mem_append, List.mem_cons, ← or_assoc,
    or_comm (b := dest = (host, path)), or_assoc,
    ← List.mem_append, List.takeWhile_append_dropWhile, or_comm]

/-- One `DelayCreateEphemeralNode` for each transport, in order, and each returns true. -/
inductive RegisterAll (url : Bytes) : ZookeeperClient → List Bytes → ZookeeperClient → Prop where
  | nil {s : ZookeeperClient} : RegisterAll url s [] s
  | cons {s m s' : ZookeeperClient} {addr : Bytes} {addrs : List Bytes} {used : List Answer}
      (hasks : Asks url addr)
      (hdone : exec (delayCreateEphemeralNode (pathFor url addr)) s used = some (true, m))
      (hrest : RegisterAll url m addrs s') : RegisterAll url s (addr :: addrs) s'

/-- The transport cannot be registered: there is nothing to ask for, or
`DelayCreateEphemeralNode` returns false. -/
inductive RegisterFails (url addr : Bytes) : ZookeeperClient → ZookeeperClient → Prop where
  | unasked {s : ZookeeperClient} (hasks : ¬ Asks url addr) : RegisterFails url addr s s
  | refused {s s' : ZookeeperClient} {used : List Answer} (hasks : Asks url addr)
      (hfailed : exec (delayCreateEphemeralNode (pathFor url addr)) s used = some (false, s')) :
      RegisterFails url addr s s'

/-- What `RegisterTo` has done when it returns `ok`: the transports of `done` are registered, one
after the other, and the first one of `left` was tried and has failed. -/
structure RegisteredTo (url : Bytes) (r r' : Registered) (mgr mgr' : ZookeeperClientMgr) (ok : Bool)
    (done left : List Bytes) : Prop where
  ended : ok = true ↔ left = []
  ran : ∃ m, RegisterAll url (getZookeeperClient mgr (hostOf url)) done m ∧
    match left with
    | [] => getZookeeperClient mgr' (hostOf url) = m
    | addr :: _ => RegisterFails url addr m (getZookeeperClient mgr' (hostOf url))
  destinations : ∀ dest, dest ∈ r'.destinations ↔
    dest ∈ r.destinations ∨ ∃ addr ∈ done, dest = (hostOf url, pathFor url addr)
  others : ∀ host, host ≠ hostOf url → getZookeeperClient mgr' host = getZookeeperClient mgr host

theorem client_insert (mgr : ZookeeperClientMgr) (host : Bytes) (client : ZookeeperClient) :
    getZookeeperClient (mgr.insert host client) host = client := by
  simp [getZookeeperClient]

theorem client_insert_other (mgr : ZookeeperClientMgr) {host other : Bytes}
    (client : ZookeeperClient) (hne : other ≠ host) :
    getZookeeperClient (mgr.insert host client) other = getZookeeperClient mgr other := by
  simp [getZookeeperClient, Std.ExtTreeMap.getElem?_insert, Ne.symm hne]

/-- One more transport before the others. -/
theorem RegisteredTo.next {client : ZookeeperClient} (hasks : Asks url addr)
    (hstep : exec (delayCreateEphemeralNode (pathFor url addr))
      (getZookeeperClient mgr (hostOf url)) used =
      some (true, client))
    (h : RegisteredTo url (r.insert (hostOf url) (pathFor url addr)) r'
      (mgr.insert (hostOf url) client) mgr'
        ok done left) :
    RegisteredTo url r r' mgr mgr' ok (addr :: done) left := by
  obtain ⟨m, hall, hend⟩ := h.ran
  rw [client_insert] at hall
  refine ⟨h.ended, ⟨m, .cons hasks hstep hall, hend⟩, ?_, ?_⟩
  · intro dest
    rw [h.destinations, mem_insert]
    simp only [List.mem_cons, exists_eq_or_imp, or_assoc]
  · intro host hne
    rw [h.others host hne, client_insert_other _ _ hne]

/-- The directory `/a/b` on the host `z`. -/
def sampleZk : Bytes := [122, 107, 58, 47, 47, 122, 47, 97, 47, 98]

/-- The url `U://h`. -/
def urlU : Bytes := [85, 58, 47, 47, 104]

/-- The url `V://h`. -/
def urlV : Bytes := [86, 58, 47, 47, 104]

/-- The client of the host `z` has a session. -/
def sampleMgr : ZookeeperClientMgr := (∅ : ZookeeperClientMgr).insert [122]
    { ZookeeperClient.init with zk := some 0 }

/-- `ZCONNECTIONLOSS`. -/
def connectionLoss : Answer := ⟨-4, []⟩

end Transports

section Server

variable {P : Type}

/-- The session of an ephemeral node; other nodes have none. -/
abbrev Owner (P : Type) := Option (P × Nat)

/-- A call of a client that has been answered, with what the server did, or the end of a session. -/
inductive Entry (P : Type) where
  | served : P → Op → Option (Event Bytes (Owner P)) → Entry P
  | expired : P → Nat → Entry P

def Entry.event : Entry P → Option (Event Bytes (Owner P))
  | .served _ _ e => e
  | .expired p zh => some (.expire (some (p, zh)))

def Entry.opOf [DecidableEq P] (p : P) : Entry P → Option Op
  | .served q op _ => if q = p then some op else none
  | .expired .. => none

/-- The calls of one client, in order. -/
def opsOf [DecidableEq P] (p : P) (entries : List (Entry P)) : List Op :=
    entries.filterMap (Entry.opOf p)

def events (entries : List (Entry P)) : List (Event Bytes (Owner P)) :=
    entries.filterMap Entry.event

/-- What the server does with a call. An error does not say that nothing was done, as the
connection may have been lost on the way back; a sequence node gets a number to its name. -/
inductive Answered (p : P) : Op → Option (Event Bytes (Owner P)) → Prop where
  | ephemeral (zh : Nat) (path : Bytes) (ret : Int) :
      Answered p (.create (some zh) path zooEphemeral ret) (some (.claim path (some (p, zh))))
  | normal (zh : Nat) (path : Bytes) (ret : Int) :
      Answered p (.create (some zh) path 0 ret) (some (.claim path none))
  | sequence (zh : Nat) (path digits : Bytes) (ret : Int) :
      Answered p (.create (some zh) path zooSequence ret) (some (.claim (path ++ digits) none))
  | notCreated {ret : Int} (zh : Option Nat) (path : Bytes) (flags : Nat) (h : ret ≠ zOk) :
      Answered p (.create zh path flags ret) none
  | deleted (zh : Option Nat) (path : Bytes) (ret : Int) :
      Answered p (.delete zh path ret) (some (.release path))
  | notDeleted {ret : Int} (zh : Option Nat) (path : Bytes) (h : ret ≠ zOk) :
      Answered p (.delete zh path ret) none
  | read (zh : Option Nat) (path : Bytes) (a : Answer) : Answered p (.getChildren zh path a) none
  | notified (f : Nat) (children : List Bytes) : Answered p (.notify f children) none

variable [DecidableEq P] {entries : List (Entry P)} {p : P} {op : Op}

theorem mem_opsOf : op ∈ opsOf p entries ↔ ∃ e, .served p op e ∈ entries := by
  rw [opsOf, List.mem_filterMap]
  constructor
  · rintro ⟨entry, hmem, hop⟩
    cases entry with
    | served q op' e =>
      simp only [Entry.opOf, Option.ite_none_right_eq_some, Option.some.injEq] at hop
      obtain ⟨rfl, rfl⟩ := hop
      exact ⟨e, hmem⟩
    | expired q zh => cases hop
  · rintro ⟨e, hmem⟩
    exact ⟨_, hmem, by simp [Entry.opOf]⟩

end Server

/-- The clients of the servers and the finder of an rpc client over one zookeeper: everybody has
run, each call has reached the server, and the finder's directory has the children that it has.
Nobody deletes the directory itself, and a list of children names each once. -/
structure Network (P : Type) [DecidableEq P] (dir : Bytes) (key cb : Nat) where
  acts : P → List Action
  clients : P → ZookeeperClient
  entries : List (Entry P)
  nodes : Book Bytes (Owner P)
  found : List Discovery.Act
  deployment : Discovery.Deployment
  ran : ∀ p, run Zookeeper.step .init (acts p) = some (clients p)
  logged : ∀ p, (clients p).log <+: opsOf p entries
  answered : ∀ p op e, .served p op e ∈ entries → Answered p op e
  reached : run Book.step .init (events entries) = some nodes
  looked : ∃ onDisconnect url, run (Discovery.step cb)
    (Discovery.init onDisconnect url) found = some deployment
  respected : ∀ act ∈ Discovery.worldActs found, ZookeeperChildren.Respected dir key cb act
  distinct : ∀ list ∈ Discovery.calls cb deployment.world.client.log, list.Nodup
  shared : ∀ children, deployment.world.server.children[dir]? = some children →
    ∀ node, node ∈ children ↔ slash ∉ node ∧ (nodes.owner (nodePath dir node)).isSome

section Network

variable {P : Type} [DecidableEq P] {dir : Bytes} {key cb : Nat}

/-- A server has registered its url, its session lasts and no retry is left, the zookeeper
server has refused it nothing, and nobody deletes the node. -/
structure Serves (net : Network P dir key cb) (p : P) (url : Bytes) : Prop where
  wellFormed : Discovery.Url url
  registered : ∃ act ∈ net.acts p, registers (nodePath dir (url2ZookeeperNode url)) act
  reserved : ∀ act ∈ net.acts p, Reserved (nodePath dir (url2ZookeeperNode url)) act
  granted : Granted (nodePath dir (url2ZookeeperNode url)) (net.clients p).log
  session : ∃ zh, (net.clients p).zk = some zh ∧ some (p, zh) ∉ net.nodes.ended
  settled : nodePath dir (url2ZookeeperNode url) ∉ (net.clients p).retries
  kept : .release (nodePath dir (url2ZookeeperNode url)) ∉ events net.entries

/-- The node is there for good, or for a session that lasts; unless the client is still at
work, it was asked to register the path. -/
inductive Backed (net : Network P dir key cb) (path : Bytes) : Prop where
  | lasting : net.nodes.owner path = some none → Backed net path
  | session {p : P} {zh : Nat} : net.nodes.owner path = some (some (p, zh)) →
      some (p, zh) ∉ net.nodes.ended →
      ((net.clients p).log = opsOf p net.entries → ∃ act ∈ net.acts p, registers path act) →
      Backed net path

variable {net : Network P dir key cb} {p : P} {path url : Bytes}

theorem Serves.owner (h : Serves net p url) :
    ∃ zh, net.nodes.owner (nodePath dir (url2ZookeeperNode url)) = some (some (p, zh)) := by
  obtain ⟨zh, hzk, hlasts⟩ := h.session
  have hmem := registered_kept (net.ran p) h.registered h.reserved
  have hsecured := registered_run h.reserved (net.ran p) h.granted hmem zh hzk
  have hholds := hsecured.resolve_right h.settled
  obtain ⟨e, hserved⟩ := mem_opsOf.mp ((net.logged p).subset (created_of_holds hholds))
  have hevent : .claim (nodePath dir (url2ZookeeperNode url))
      (some (p, zh)) ∈ events net.entries := by
    refine List.mem_filterMap.mpr ⟨_, hserved, ?_⟩
    cases net.answered p _ e hserved with
    | ephemeral => rfl
    | notCreated _ _ _ hret => exact absurd rfl hret
  exact ⟨zh, Book.owner_of_claimed net.reached hevent h.kept hlasts⟩

theorem backed_of_owner (h : (net.nodes.owner path).isSome) : Backed net path := by
  obtain ⟨owner, howner⟩ := Option.isSome_iff_exists.mp h
  obtain ⟨hclaim, hlasts⟩ := Book.claimed_of_owner net.reached howner
  cases owner with
  | none => exact .lasting howner
  | some session =>
    obtain ⟨p, zh⟩ := session
    refine .session howner hlasts fun hlog => ?_
    obtain ⟨entry, hentry, hevent⟩ := List.mem_filterMap.mp hclaim
    cases entry with
    | expired q zh' => cases hevent
    | served q op e =>
      obtain rfl : e = some (.claim path (some (p, zh))) := hevent
      cases net.answered q op _ hentry with
      | ephemeral _ _ ret =>
        have hcall := mem_opsOf.mpr ⟨_, hentry⟩
        rw [← hlog] at hcall
        exact (within_run (net.ran p)).created _ path ret hcall

theorem url_ne_nil (h : Discovery.Url url) : url ≠ [] := by
  obtain ⟨proto, addr, -, -, rfl⟩ := h
  simp [schemeEnd]

/-- When all has come to rest, the finder has a transport for each server that has registered,
and each of its transports is for a node whose session lasts, by a client that registered it. -/
theorem registered_found (net : Network P dir key cb)
    (hsettled : Discovery.Settled dir key cb net.deployment) : (∀ p url, Serves net p url → ∃ tp,
      net.deployment.finder.shared.transports[url]? = some (some tp)) ∧
    ∀ url ∈ net.deployment.finder.shared.transports,
      ∃ node, url = zookeeperNode2Url node ∧ Backed net (nodePath dir node) := by
  obtain ⟨onDisconnect, start, hlooked⟩ := net.looked
  obtain ⟨children, hchildren, htransports⟩ :=
    Discovery.transports_settled net.respected hlooked hsettled
  have hshared := net.shared children hchildren
  constructor
  · intro p url hserves
    obtain ⟨zh, howner⟩ := hserves.owner
    have hnode : url2ZookeeperNode url ∈ children := by
      rw [hshared, howner]
      exact ⟨hserves.wellFormed.noSlash, rfl⟩
    have hmem : url ∈ net.deployment.finder.shared.transports := by
      rw [htransports, List.mem_map]
      exact ⟨_, hnode, hserves.wellFormed.survives⟩
    have hfilled := Discovery.filled_run hlooked net.distinct url (url_ne_nil hserves.wellFormed)
    cases hvalue : net.deployment.finder.shared.transports[url]? with
    | none => exact absurd hvalue (FinderReconcile.mem_transports.mp hmem)
    | some v =>
      cases v with
      | none => exact absurd hvalue hfilled
      | some tp => exact ⟨tp, rfl⟩
  · intro url hurl
    rw [htransports, List.mem_map] at hurl
    obtain ⟨node, hnode, rfl⟩ := hurl
    exact ⟨node, rfl, backed_of_owner ((hshared node).mp hnode).2⟩

/-- The path of the server `U://h` under `/a/b`. -/
def pathU : Bytes := nodePath samplePath (url2ZookeeperNode urlU)

/-- The server registers before its session comes up. -/
def serverActs : List Action :=
  [.delayCreateEphemeralNode pathU [], .connect true,
    .enqueue ⟨0, zooSessionEvent, zooConnectedState, []⟩, .onWatch [created, created, created]]

def serverCalls : List (Entry Unit) :=
  [.served () (.create (some 0) [47, 97] 0 zOk) (some (.claim [47, 97] none)),
    .served () (.create (some 0) samplePath 0 zOk) (some (.claim samplePath none)),
    .served () (.create (some 0) pathU zooEphemeral zOk) (some (.claim pathU (some ((), 0))))]

def serverNodes : Book Bytes (Owner Unit) :=
  ((Book.init.set [47, 97] (some none)).set samplePath (some none)).set pathU (some (some ((), 0)))

/-- The finder's session comes up later. -/
def finderActs : List Discovery.Act :=
  [.world (.client (.watch samplePath 7 1 []) []),
    .world (.change samplePath (some [Discovery.nodeU])), .world (.client (.connect true) []),
      .world (.client (.enqueue ⟨0, zooSessionEvent, zooConnectedState, []⟩) []),
    .world (.client (.onWatch [⟨zOk, [Discovery.nodeU]⟩]) [.call, .call]),
    .finder (.spawn (.childs [Discovery.nodeU] .notified)), .finder (.run 0 .tryLock),
      .finder (.run 0 .apply),
    .finder (.run 0 .unlock)]

theorem nodePath_injective {dir node node' : Bytes} (h : nodePath dir node = nodePath dir node') :
    node = node' :=
  List.append_cancel_left h

theorem answered_serverCalls (p : Unit) (op : Op) (e : Option (Event Bytes (Owner Unit)))
    (h : .served p op e ∈ serverCalls) : Answered p op e := by
  simp only [serverCalls, List.mem_cons, Entry.served.injEq, List.not_mem_nil, or_false] at h
  rcases h with ⟨-, rfl, rfl⟩ | ⟨-, rfl, rfl⟩ | ⟨-, rfl, rfl⟩
  · exact .normal 0 _ _
  · exact .normal 0 _ _
  · exact .ephemeral 0 _ _

theorem granted_serverCalls : Granted pathU (opsOf () serverCalls) := by
  intro zh path flags ret hmem _
  have hret : ret = zOk := by
    simp only [serverCalls, opsOf, List.filterMap_cons, Entry.opOf, if_true,
      List.filterMap_nil, List.mem_cons,
      Op.create.injEq, List.not_mem_nil, or_false] at hmem
    rcases hmem with ⟨-, -, -, hret⟩ | ⟨-, -, -, hret⟩ | ⟨-, -, -, hret⟩ <;> exact hret
  exact .inl hret

/-- The one node of the directory. -/
theorem owner_serverNodes (node : Bytes) :
    (serverNodes.owner (nodePath samplePath node)).isSome ↔ node = Discovery.nodeU := by
  have hlong {path : Bytes} (hshort : path.length ≤ samplePath.length) :
      nodePath samplePath node ≠ path := by
    rintro rfl
    simp [nodePath] at hshort
  constructor
  · intro howner
    by_contra hne
    have hother : nodePath samplePath node ≠ pathU := fun h => hne (nodePath_injective h)
    rw [serverNodes, Book.set_other _ _ hother, Book.set_other _ _ (hlong (by decide)),
      Book.set_other _ _ (hlong (by decide))] at howner
    cases howner
  · rintro rfl
    decide

theorem respected_finderActs :
    ∀ act ∈ Discovery.worldActs finderActs, ZookeeperChildren.Respected samplePath 1 7 act := by
  simp only [Discovery.worldActs, finderActs, List.filterMap_cons, List.filterMap_nil,
    ZookeeperChildren.Respected,
    List.forall_mem_cons, Action.watch.injEq]
  refine ⟨⟨?_, by decide⟩, by simp⟩
  rintro p k answers ⟨rfl, -, rfl, -⟩
  exact ⟨rfl, rfl⟩

theorem registered_found_late :
    ∃ net : Network Unit samplePath 1 7, Discovery.Settled samplePath 1 7 net.deployment ∧
    Serves net () urlU ∧
    (∀ p url, Serves net p url → ∃ tp,
      net.deployment.finder.shared.transports[url]? = some (some tp)) ∧
    ∀ url ∈ net.deployment.finder.shared.transports,
      ∃ node, url = zookeeperNode2Url node ∧ Backed net (nodePath samplePath node) := by
  obtain ⟨s, hs, hserver⟩ := run_exists Zookeeper.step .init serverActs
    (fun s => decide (s.log = opsOf () serverCalls ∧ s.zk = some 0 ∧ s.retries = []))
      (by decide +kernel)
  obtain ⟨hlog, hup, hretries⟩ := of_decide_eq_true hserver
  obtain ⟨d, hd, hend⟩ := run_exists (Discovery.step 7) (Discovery.init false []) finderActs
    (fun d => decide ((d.world.client.watchersAt samplePath)[1]? = some 7 ∧
      ZookeeperChildren.told samplePath 7 d.world.client.log = some [Discovery.nodeU] ∧
      d.world.client.zk = some 0 ∧
      (0, samplePath) ∉ d.world.server.flying ∧ d.world.client.eventChan = [] ∧
      (Discovery.notifications d.finder).length = (Discovery.calls 7 d.world.client.log).length ∧
      (Discovery.notifications d.finder).getLast? = some ([Discovery.nodeU], .returned .applied) ∧
      d.world.server.children[samplePath]? = some [Discovery.nodeU] ∧
      Discovery.calls 7 d.world.client.log = [[Discovery.nodeU]])) (by decide +kernel)
  obtain ⟨hwatched, htold, hzk, hflying, hchan, hhanded, hlast, hchildren, hcalls⟩ :=
    of_decide_eq_true hend
  have hsettled : Discovery.Settled samplePath 1 7 d :=
    ⟨hwatched, ⟨_, htold⟩, ⟨0, hzk, hflying⟩, by simp [hchan], hhanded, ⟨_, hlast⟩⟩
  have hshared : ∀ children, d.world.server.children[samplePath]? = some children →
      ∀ node, node ∈ children ↔ slash ∉ node ∧
      (serverNodes.owner (nodePath samplePath node)).isSome := by
    intro children hc node
    obtain rfl := Option.some.inj (hchildren.symm.trans hc)
    rw [List.mem_singleton, owner_serverNodes]
    refine ⟨?_, And.right⟩
    rintro rfl
    exact ⟨by decide, rfl⟩
  let net : Network Unit samplePath 1 7 :=
    ⟨fun _ => serverActs, fun _ => s, serverCalls, serverNodes, finderActs, d,
    fun _ => hs, fun _ => hlog ▸ List.prefix_rfl, answered_serverCalls, rfl, ⟨false, [], hd⟩,
      respected_finderActs, by simp [hcalls], hshared⟩
  have hserves : Serves net () urlU :=
    { wellFormed := ⟨[85], [104], ⟨by decide, by decide, by decide⟩, ⟨by decide, by decide⟩, rfl⟩
      registered := ⟨_, List.mem_cons_self, by simp [registers, pathU]⟩
      reserved := by simp [net, serverActs, Reserved]
      granted := hlog ▸ granted_serverCalls
      session := ⟨0, hup, List.not_mem_nil⟩
      settled := hretries ▸ List.not_mem_nil
      kept := by simp [net, serverCalls, events, Entry.event] }
  exact ⟨net, hsettled, hserves, registered_found net hsettled⟩

end Network

end Ucorf.Registration
