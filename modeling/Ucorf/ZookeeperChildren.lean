import Ucorf.ZookeeperWatch

/-!
# Children lists and one-shot watches

`zoo_get_children` leaves a watch on the server that fires once, at the next change of the
children. The client asks anew for each notice, so a callback that watches a path has the
present list, or a notice is on its way to it. The server is an assumption about what is
outside; its nodes are changed by anybody at any time, also between two calls of a method.
-/
namespace Ucorf.ZookeeperChildren

open Ucorf.Message
open Ucorf.Scripts
open Ucorf.Threads
open Ucorf.Zookeeper
open Ucorf.ZookeeperFrames
open Ucorf.ZookeeperWatch

/-- The children of each node, the watches by handle and path, and the child notices that
have left the server. -/
structure Server where
  children : Std.ExtTreeMap Bytes (List Bytes)
  armed : List (Nat × Bytes)
  flying : List (Nat × Bytes)

namespace Server

/-- The node gets these children or is deleted. The notice of a deletion is of another type. -/
def change (srv : Server) (path : Bytes) : Option (List Bytes) → Server
  | some children =>
    { children := srv.children.insert path children
      armed := srv.armed.filter fun w => w.2 != path
      flying := srv.flying ++ srv.armed.filter fun w => w.2 == path }
  | none =>
    { srv with
      children := srv.children.erase path
      armed := srv.armed.filter fun w => w.2 != path }

/-- A call arrives. What a create does to the parent is a change like those of other clients. -/
def call (srv : Server) : Op → Option Server
  | .getChildren zh path a =>
    if a.ret = zOk then
      if srv.children[path]? = some a.children then
        some { srv with armed := srv.armed ++ (zh.map fun h => (h, path)).toList }
      else none
    else some srv
  | .create .. => some srv
  | .delete .. => some srv
  | .notify .. => some srv

end Server

inductive Exchange where
  | change : Bytes → Option (List Bytes) → Exchange
  | call : Exchange
  deriving DecidableEq, Repr

/-- The calls of a method arrive in order, with changes around them. -/
def serve : Server → List Exchange → List Op → Option Server
  | srv, [], [] => some srv
  | srv, .change path now :: rest, ops => serve (srv.change path now) rest ops
  | srv, .call :: rest, op :: ops => (srv.call op).bind fun srv' => serve srv' rest ops
  | _, _, _ => none

/-- A child notice is delivered once. -/
def deliver (srv : Server) : Action → Option Server
  | .enqueue e =>
    if e.type = zooChildEvent then
      if (e.zh, e.path) ∈ srv.flying
        then some { srv with flying := srv.flying.erase (e.zh, e.path) } else none
    else some srv
  | _ => some srv

structure World where
  client : ZookeeperClient
  server : Server

inductive Act where
  | client : Action → List Exchange → Act
  | change : Bytes → Option (List Bytes) → Act
  deriving DecidableEq, Repr

namespace World

def init : World := ⟨.init, ⟨∅, [], []⟩⟩

def step (w : World) : Act → Option World
  | .client act exchanges =>
    (deliver w.server act).bind fun srv =>
      (Zookeeper.step w.client act).bind fun client =>
        (serve srv exchanges (newOps w.client client)).map fun srv' => ⟨client, srv'⟩
  | .change path now => some { w with server := w.server.change path now }

end World

/-- One call after the list that the callback was told last; a refusal makes that list void. -/
def hear (path : Bytes) (cb : Nat) (last : Option (List Bytes)) : Op → Option (List Bytes)
  | .notify f children => if f = cb then some children else last
  | .getChildren _ p a => if p = path ∧ a.ret ≠ zOk then none else last
  | .create .. => last
  | .delete .. => last

/-- The list that the callback was told last, unless the server has refused one since. -/
def told (path : Bytes) (cb : Nat) (log : List Op) : Option (List Bytes) :=
  log.foldl (hear path cb) none

/-- The list is the present one and a watch waits for the next, or a notice is out. -/
def Current (srv : Server) (h : Nat) (path : Bytes) (list : List Bytes) : Prop :=
  (srv.children[path]? = some list ∧ (h, path) ∈ srv.armed) ∨ (h, path) ∈ srv.flying

/-- A child notice of the path waits in the channel. -/
def Queued (s : ZookeeperClient) (path : Bytes) : Prop :=
  ∃ e ∈ s.eventChan, e.type = zooChildEvent ∧ e.path = path

/-- The callback belongs to one path and one key. -/
def OnlyAt (path : Bytes) (key cb : Nat) (s : ZookeeperClient) : Prop :=
  ∀ p k, (s.watchersAt p)[k]? = some cb → p = path ∧ k = key

/-- The action gives the callback to no other path or key, and the node is not deleted. -/
def Respected (path : Bytes) (key cb : Nat) : Act → Prop
  | .client act exchanges => (∀ p k answers, act = .watch p cb k answers → p = path ∧ k = key) ∧
      .change path none ∉ exchanges
  | .change p now => p = path → now ≠ none

section Serving

variable {srv srv' : Server} {h : Nat} {path : Bytes} {list : List Bytes}

theorem current_change {p : Bytes} {now : Option (List Bytes)} (hkeep : p = path → now ≠ none)
    (hcur : Current srv h path list) :
    Current (srv.change p now) h path list := by
  rcases hcur with ⟨hlist, harmed⟩ | hflying
  · by_cases hp : p = path
    · subst hp
      cases now with
      | none => exact absurd rfl (hkeep rfl)
      | some children =>
          exact .inr (List.mem_append_right _ (List.mem_filter.mpr ⟨harmed, by simp⟩))
    · left
      have hstay : (h, path) ∈ srv.armed.filter fun w => w.2 != p :=
        List.mem_filter.mpr ⟨harmed, by simpa using Ne.symm hp⟩
      cases now with
      | none =>
        refine ⟨?_, hstay⟩
        rw [Server.change, Std.ExtTreeMap.getElem?_erase, if_neg (by simpa using hp)]
        exact hlist
      | some children =>
        refine ⟨?_, hstay⟩
        rw [Server.change, Std.ExtTreeMap.getElem?_insert, if_neg (by simpa using hp)]
        exact hlist
  · cases now with
    | none => exact .inr hflying
    | some children => exact .inr (List.mem_append_left _ hflying)

/-- What a call does to the server: the list that it was given is the present one. -/
theorem call_cases {op : Op} (hcall : srv.call op = some srv') :
    srv'.children = srv.children ∧ srv'.flying = srv.flying ∧ (∀ w ∈ srv.armed, w ∈ srv'.armed) ∧
    ∀ zh p a, op = .getChildren zh p a → a.ret = zOk →
      srv.children[p]? = some a.children ∧ ∀ k, zh = some k → (k, p) ∈ srv'.armed := by
  cases op with
  | getChildren zh p a =>
    simp only [Server.call] at hcall
    split at hcall
    · split at hcall
      · rename_i hlist
        cases hcall
        refine ⟨rfl, rfl, fun w hw => List.mem_append_left _ hw, ?_⟩
        rintro _ _ _ ⟨⟩ -
        refine ⟨hlist, ?_⟩
        rintro k rfl
        simp
      · cases hcall
    · rename_i hret
      cases hcall
      refine ⟨rfl, rfl, fun w hw => hw, ?_⟩
      rintro _ _ _ ⟨⟩ hok
      exact absurd hok hret
  | _ =>
    cases hcall
    exact ⟨rfl, rfl, fun w hw => hw, by rintro _ _ _ ⟨⟩⟩

theorem current_serve {exchanges : List Exchange} {ops : List Op}
    (hkeep : .change path none ∉ exchanges) (hserve : serve srv exchanges ops = some srv')
    (hcur : Current srv h path list) :
    Current srv' h path list := by
  induction exchanges generalizing srv ops with
  | nil =>
    cases ops with
    | nil =>
      cases hserve
      exact hcur
    | cons op ops => cases hserve
  | cons x rest ih =>
    rw [List.mem_cons, not_or] at hkeep
    cases x with
    | change p now =>
      refine ih hkeep.2 hserve (current_change ?_ hcur)
      rintro rfl rfl
      exact hkeep.1 rfl
    | call =>
      cases ops with
      | nil => cases hserve
      | cons op ops =>
        obtain ⟨m, hm, hrest⟩ := Option.bind_eq_some_iff.mp hserve
        obtain ⟨hchildren, hflying, harmed, -⟩ := call_cases hm
        refine ih hkeep.2 hrest ?_
        rw [Current, hchildren, hflying]
        exact hcur.imp (fun hleft => ⟨hleft.1, harmed _ hleft.2⟩) id

/-- A list that the server gave out during a method is current when the method is over. -/
theorem current_of_get {exchanges : List Exchange} {ops : List Op} {a : Answer}
    (hkeep : .change path none ∉ exchanges) (hserve : serve srv exchanges ops = some srv')
    (hget : .getChildren (some h) path a ∈ ops) (hret : a.ret = zOk) :
    Current srv' h path a.children := by
  induction exchanges generalizing srv ops with
  | nil =>
    cases ops with
    | nil => cases hget
    | cons op ops => cases hserve
  | cons x rest ih =>
    rw [List.mem_cons, not_or] at hkeep
    cases x with
    | change p now => exact ih hkeep.2 hserve hget
    | call =>
      cases ops with
      | nil => cases hserve
      | cons op ops =>
        obtain ⟨m, hm, hrest⟩ := Option.bind_eq_some_iff.mp hserve
        rcases List.mem_cons.mp hget with hop | hget
        · obtain ⟨hchildren, -, -, hgot⟩ := call_cases hm
          obtain ⟨hlist, harmed⟩ := hgot _ _ _ hop.symm hret
          refine current_serve hkeep.2 hrest (.inl ⟨?_, harmed h rfl⟩)
          rw [hchildren]
          exact hlist
        · exact ih hkeep.2 hrest hget

end Serving

section Telling

variable {path : Bytes} {cb : Nat} {list : List Bytes}

/-- What was told last was told now, or before and nothing has happened to it. -/
theorem hear_cases {last : Option (List Bytes)} {ops : List Op}
    (h : ops.foldl (hear path cb) last = some list) :
    .notify cb list ∈ ops ∨
    (last = some list ∧ (∀ children, .notify cb children ∉ ops) ∧
      ∀ zh a, .getChildren zh path a ∈ ops → a.ret = zOk) := by
  induction ops generalizing last with
  | nil => exact .inr ⟨h, by simp, by simp⟩
  | cons op ops ih =>
    rcases ih h with hnow | ⟨hlast, hquiet, hgood⟩
    · exact .inl (List.mem_cons_of_mem _ hnow)
    · -- the first call has told the list, or it has left the list before it alone
      cases op with
      | notify f children =>
        simp only [hear] at hlast
        split at hlast
        · rename_i hf
          cases hlast
          exact .inl (by simp [hf])
        · rename_i hf
          refine .inr ⟨hlast, fun children' hmem => ?_, fun zh a hmem => ?_⟩
          · rcases List.mem_cons.mp hmem with hop | hmem
            · cases hop
              exact hf rfl
            · exact hquiet _ hmem
          · rcases List.mem_cons.mp hmem with hop | hmem
            · cases hop
            · exact hgood zh a hmem
      | getChildren zh p a =>
        simp only [hear] at hlast
        split at hlast
        · cases hlast
        · rename_i hgot
          refine .inr ⟨hlast, fun children' hmem => ?_, fun zh' b hmem => ?_⟩
          · rcases List.mem_cons.mp hmem with hop | hmem
            · cases hop
            · exact hquiet _ hmem
          · rcases List.mem_cons.mp hmem with hop | hmem
            · cases hop
              by_contra hne
              exact hgot ⟨rfl, hne⟩
            · exact hgood zh' b hmem
      | create zh p flags ret =>
        exact .inr ⟨hlast, by simpa using hquiet, by simpa using hgood⟩
      | delete zh p ret =>
        exact .inr ⟨hlast, by simpa using hquiet, by simpa using hgood⟩

theorem told_append {log ops : List Op} (h : told path cb (log ++ ops) = some list) :
    .notify cb list ∈ ops ∨
    (told path cb log = some list ∧ (∀ children, .notify cb children ∉ ops) ∧
      ∀ zh a, .getChildren zh path a ∈ ops → a.ret = zOk) := by
  rw [told, List.foldl_append] at h
  exact hear_cases h

end Telling

section Asking

variable {path : Bytes} {key cb : Nat}

/-- The method leaves the session and the watchers alone, asks on its handle, and calls `cb`
only with a list of `path` that it got there. -/
structure Asks (path : Bytes) (key cb : Nat) (s s' : ZookeeperClient) : Prop where
  zk : s'.zk = s.zk
  watchers : ∀ p, s'.watchersAt p = s.watchersAt p
  chan : s'.eventChan = s.eventChan
  grows : ∃ ops, s'.log = s.log ++ ops ∧
    (OnlyAt path key cb s → ∀ children, .notify cb children ∈ ops →
    ∃ a, .getChildren s.zk path a ∈ ops ∧ a.ret = zOk ∧ a.children = children)

theorem Asks.onlyAt {s s' : ZookeeperClient} (h : Asks path key cb s s')
    (hs : OnlyAt path key cb s) : OnlyAt path key cb s' := by
  intro p k hk
  rw [h.watchers] at hk
  exact hs p k hk

theorem asks_of_op {s s' : ZookeeperClient} (op : Op) (hzk : s'.zk = s.zk)
    (hw : s'.watchers = s.watchers)
    (hchan : s'.eventChan = s.eventChan) (hlog : s'.log = s.log ++ [op])
    (hop : ∀ children, op ≠ .notify cb children) :
    Asks path key cb s s' := by
  refine ⟨hzk, fun p => by rw [ZookeeperClient.watchersAt, hw]; rfl, hchan, [op], hlog, ?_⟩
  intro _ children hmem
  exact absurd (List.mem_singleton.mp hmem).symm (hop children)

theorem asks_core {s s' : ZookeeperClient} (hzk : s'.zk = s.zk)
    (hw : ∀ p, s'.watchersAt p = s.watchersAt p)
    (hchan : s'.eventChan = s.eventChan) (hlog : s'.log = s.log) :
    Asks path key cb s s' :=
  ⟨hzk, hw, hchan, [], by rw [hlog, List.append_nil], by simp⟩

theorem asks_trans (s t u : ZookeeperClient) (h : Asks path key cb s t)
    (h' : Asks path key cb t u) : Asks path key cb s u := by
  obtain ⟨ops, hlog, hops⟩ := h.grows
  obtain ⟨ops', hlog', hops'⟩ := h'.grows
  refine ⟨h'.zk.trans h.zk, fun p => (h'.watchers p).trans (h.watchers p),
    h'.chan.trans h.chan, ops ++ ops',
    by rw [hlog', hlog, List.append_assoc], ?_⟩
  intro hs children hmem
  rcases List.mem_append.mp hmem with hmem | hmem
  · obtain ⟨a, hget, ha⟩ := hops hs children hmem
    exact ⟨a, List.mem_append_left _ hget, ha⟩
  · obtain ⟨a, hget, ha⟩ := hops' (h.onlyAt hs) children hmem
    rw [h.zk] at hget
    exact ⟨a, List.mem_append_right _ hget, ha⟩

/-- The callbacks of a list are those of its path. -/
theorem asks_notified {f : Option Nat} (hf : f ≠ some cb) (s : ZookeeperClient)
    (p : Bytes) (a : Answer) (hret : a.ret = zOk) :
    Asks path key cb s (notified (asked s p a) p f a.children) := by
  refine ⟨by cases f <;> rfl,
    fun q => watchersAt_notified (asked s p a) p q f a.children, by cases f <;> rfl, ?_⟩
  cases f with
  | some g =>
    refine ⟨[.getChildren s.zk p a, .notify g a.children], ?_, ?_⟩
    · show s.log ++ [Op.getChildren s.zk p a] ++ [Op.notify g a.children] = _
      rw [List.append_assoc]
      rfl
    · intro _ children hmem
      simp only [List.mem_cons, reduceCtorEq, List.not_mem_nil, or_false,
        false_or, Op.notify.injEq] at hmem
      exact absurd (congrArg some hmem.1.symm) hf
  | none =>
    refine ⟨.getChildren s.zk p a :: (s.watchersAt p).toList.map fun kv =>
      .notify kv.2 a.children, ?_, ?_⟩
    · show s.log ++ [Op.getChildren s.zk p a] ++ _ = _
      rw [List.append_assoc]
      rfl
    · intro hs children hmem
      rcases List.mem_cons.mp hmem with hop | hmem
      · cases hop
      · obtain ⟨⟨k, f⟩, hkv, hop⟩ := List.mem_map.mp hmem
        cases hop
        obtain ⟨rfl, -⟩ := hs p k (Std.ExtTreeMap.mem_toList_iff_getElem?_eq_some.mp hkv)
        exact ⟨a, by simp, hret, rfl⟩

theorem asks_frame {f : Option Nat} (hf : f ≠ some cb) : FetchFrame (Asks path key cb) f where
  refl s := asks_core rfl (fun _ => rfl) rfl rfl
  trans := asks_trans
  create s _ _ _ := asks_of_op _ rfl rfl rfl rfl (by rintro children ⟨⟩)
  addRetry s _ := asks_core rfl (fun _ => rfl) rfl rfl
  addNode s _ := asks_core rfl (fun _ => rfl) rfl rfl
  asked s _ _ _ := asks_of_op _ rfl rfl rfl rfl (by rintro children ⟨⟩)
  notified := asks_notified hf

def Grows (s s' : ZookeeperClient) : Prop := ∃ ops, s'.log = s.log ++ ops

theorem grows_frame (f : Option Nat) : FetchFrame Grows f where
  refl s := ⟨[], (List.append_nil _).symm⟩
  trans := by
    rintro s t u ⟨ops, hops⟩ ⟨ops', hops'⟩
    exact ⟨ops ++ ops', by rw [hops', hops, List.append_assoc]⟩
  create s p flags ret := ⟨_, rfl⟩
  addRetry s p := ⟨[], (List.append_nil _).symm⟩
  addNode s p := ⟨[], (List.append_nil _).symm⟩
  asked s p a _ := ⟨_, rfl⟩
  notified s p a _ := by cases f <;> exact ⟨_, List.append_assoc ..⟩

theorem grows_step {s s' : ZookeeperClient} {act : Action} (h : Zookeeper.step s act = some s') :
    Grows s s' := by
  have hcore (s s' : ZookeeperClient) (hlog : s'.log = s.log) : Grows s s' :=
    ⟨[], by rw [hlog, List.append_nil]⟩
  have hset (s : ZookeeperClient) (p : Bytes) (m : WatcherMap) :
      Grows s (s.setWatchers p m) := hcore _ _ rfl
  refine (grows_frame none).step_respects (fun s s' _ _ hlog => hcore s s' hlog)
    (fun s p ret => ⟨_, rfl⟩) ?_ ?_ h
  · intro p f k answers _ ok hw
    exact ((grows_frame (some f)).respects_watch hset p k).exec hw
  · intro p k _ u hu
    exact ((grows_frame none).respects_unwatch hset p k).exec hu

/-- The children of the path were asked for. -/
def Tried (path : Bytes) (s s' : ZookeeperClient) : Prop :=
  ∃ ops, s'.log = s.log ++ ops ∧ ∃ zh a, .getChildren zh path a ∈ ops

theorem Tried.before {s t u : ZookeeperClient} (h : Asks path key cb s t) (h' : Tried path t u) :
    Tried path s u := by
  obtain ⟨ops, hlog, -⟩ := h.grows
  obtain ⟨ops', hlog', zh, a, hmem⟩ := h'
  exact ⟨ops ++ ops', by rw [hlog', hlog, List.append_assoc], zh, a, List.mem_append_right _ hmem⟩

theorem Tried.after {s t u : ZookeeperClient} (h : Tried path s t) (h' : Asks path key cb t u) :
    Tried path s u := by
  obtain ⟨ops', hlog', -⟩ := h'.grows
  obtain ⟨ops, hlog, zh, a, hmem⟩ := h
  exact ⟨ops ++ ops', by rw [hlog', hlog, List.append_assoc], zh, a, List.mem_append_left _ hmem⟩

/-- The first round of `__Watch` asks for the children. -/
theorem watchLoop_tried {n : Nat} {p q : ZookeeperClient × List Answer} {ok : Bool}
    (h : watchLoop path none n p = some (ok, q)) :
    Tried path p.1 q.1 := by
  cases n with
  | zero => cases h
  | succ n =>
    obtain ⟨a, m, hget, hrest⟩ := bind_eq_some.mp h
    obtain ⟨-, hm⟩ := zooGetChildren_eq_some hget
    have hfirst : Tried path p.1 m.1 := by
      rw [hm]
      exact ⟨[.getChildren p.1.zk path a], rfl, p.1.zk, a, by simp⟩
    -- whatever the round does with the answer, it only adds to the log
    have hf : PlainFetchFrame Grows none := (grows_frame none).plain
    have hloop : Respects Grows (if a.ret = zOk then do
        notifyWatchers path none a.children
        return true
      else if a.ret = zNoNode then do
        let ok ← createNode path .normal true
        if ok then watchLoop path none n else return false
      else return false) := by
      refine respects_ite (fun _ => ?_) fun _ => respects_ite (fun _ => ?_) fun _ =>
        respects_pure hf.refl _
      · refine (respects_update fun s => ?_).bind hf.trans fun _ => respects_pure hf.refl _
        exact ⟨_, rfl⟩
      · refine (hf.respects_createNode path (by decide) true).bind hf.trans fun ok => ?_
        exact respects_ite (fun _ => hf.respects_watchLoop path n) fun _ => respects_pure hf.refl _
    obtain ⟨ops, hlog, zh, b, hmem⟩ := hfirst
    obtain ⟨ops', hlog'⟩ := hloop _ _ _ hrest
    exact ⟨ops ++ ops', by rw [hlog', hlog, List.append_assoc], zh, b, List.mem_append_left _ hmem⟩

theorem fetchChildren_tried {p q : ZookeeperClient × List Answer} {ok : Bool} (hzk : p.1.zk ≠ none)
    (h : fetchChildren path none p = some (ok, q)) :
    Tried path p.1 q.1 := by
  obtain ⟨zk, m, hview, hrest⟩ := bind_eq_some.mp h
  obtain ⟨rfl, rfl⟩ := view_eq_some.mp hview
  rw [if_neg hzk] at hrest
  exact watchLoop_tried hrest

theorem fetchAll_tried {paths : List Bytes} {p q : ZookeeperClient × List Answer} {u : Unit}
    (hmem : path ∈ paths) (hzk : p.1.zk ≠ none) (h : fetchAll paths p = some (u, q)) :
    Tried path p.1 q.1 := by
  have hf : FetchFrame (Asks path 0 0) none := asks_frame (by simp)
  induction paths generalizing p with
  | nil => cases hmem
  | cons first rest ih =>
    obtain ⟨ok, m, hfetch, hrest⟩ := bind_eq_some.mp h
    have hasks := hf.respects_fetchChildren first _ _ _ hfetch
    rcases List.mem_cons.mp hmem with rfl | hmem
    · exact (fetchChildren_tried hzk hfetch).after (hf.plain.respects_fetchAll rest _ _ _ hrest)
    · exact (ih hmem (by rw [hasks.zk]; exact hzk) hrest).before hasks

/-- A new session asks for the children of each watched path. -/
theorem onConnected_tried {s s' : ZookeeperClient} {zh : Nat} {answers : List Answer} {u : Unit}
    (hw : Watched s path key cb) (h : exec (onConnected zh) s answers = some (u, s')) :
    Tried path { s with zk := some zh } s' := by
  have hf : FetchFrame (Asks path 0 0) none := asks_frame (by simp)
  obtain ⟨_, p, hset, hrest⟩ := bind_eq_some.mp (exec_eq_some.mp h)
  have hp := update_eq_some.mp hset
  subst hp
  obtain ⟨paths, p, hview, hrest⟩ := bind_eq_some.mp hrest
  obtain ⟨rfl, rfl⟩ := view_eq_some.mp hview
  obtain ⟨_, m, hall, hrest⟩ := bind_eq_some.mp hrest
  have hmem : path ∈ s.watchers.keys := by
    rw [Std.ExtTreeMap.mem_keys, Std.ExtTreeMap.mem_iff_isSome_getElem?]
    by_contra hnot
    rw [Watched, ZookeeperClient.watchersAt, Option.not_isSome_iff_eq_none.mp hnot] at hw
    simp at hw
  have hnodes : Respects (Asks path 0 0) (do
      let nodes ← view fun s : ZookeeperClient => s.ephemeralNodes.toList
      createAll nodes) :=
    (respects_view hf.refl _).bind hf.trans fun nodes => hf.respects_createAll nodes
  exact (fetchAll_tried hmem (by simp) hall).after (hnodes _ _ _ hrest)

/-- Calls with no callback among them. -/
def Silent (s s' : ZookeeperClient) : Prop :=
  ∃ ops, s'.log = s.log ++ ops ∧ ∀ f children, .notify f children ∉ ops

theorem silent_frame : Frame Silent where
  refl s := ⟨[], by simp, by simp⟩
  trans s t u h h' := by
    obtain ⟨ops, hlog, hops⟩ := h
    obtain ⟨ops', hlog', hops'⟩ := h'
    refine ⟨ops ++ ops', by rw [hlog', hlog, List.append_assoc], fun f children hmem => ?_⟩
    rcases List.mem_append.mp hmem with hmem | hmem
    · exact hops f children hmem
    · exact hops' f children hmem
  create s p flags ret := ⟨[.create s.zk p flags ret], rfl, by simp⟩
  addRetry s _ := ⟨[], (List.append_nil _).symm, by simp⟩
  addNode s _ := ⟨[], (List.append_nil _).symm, by simp⟩

/-- A `__Watch` that fails calls nobody, and the server has refused it a list. -/
theorem watchLoop_refused {f : Option Nat} {n : Nat} {p q : ZookeeperClient × List Answer}
    (h : watchLoop path f n p = some (false, q)) :
    ∃ ops, q.1.log = p.1.log ++ ops ∧ (∀ g children, .notify g children ∉ ops) ∧
      ∃ zh a, .getChildren zh path a ∈ ops ∧ a.ret ≠ zOk := by
  induction n generalizing p with
  | zero => cases h
  | succ n ih =>
    obtain ⟨a, m, hget, hrest⟩ := bind_eq_some.mp h
    obtain ⟨-, hm⟩ := zooGetChildren_eq_some hget
    have hlog : m.1.log = p.1.log ++ [.getChildren p.1.zk path a] := by
      rw [hm]
      rfl
    split at hrest
    · obtain ⟨_, m', -, hpure⟩ := bind_eq_some.mp hrest
      obtain ⟨htrue, -⟩ := pure_eq_some.mp hpure
      cases htrue
    · rename_i hret
      split at hrest
      · obtain ⟨ok, m', hcreate, hrest⟩ := bind_eq_some.mp hrest
        obtain ⟨ops, hops, hquiet⟩ :=
          silent_frame.respects_createNode path .normal true _ _ _ hcreate
        split at hrest
        · obtain ⟨ops', hops', hquiet', -⟩ := ih hrest
          refine ⟨.getChildren p.1.zk path a :: (ops ++ ops'), ?_, fun g children hmem => ?_,
            p.1.zk, a, by simp, hret⟩
          · rw [hops', hops, hlog]
            simp
          · simp only [List.mem_cons, reduceCtorEq, List.mem_append, false_or] at hmem
            rcases hmem with hmem | hmem
            · exact hquiet g children hmem
            · exact hquiet' g children hmem
        · obtain ⟨-, rfl⟩ := pure_eq_some.mp hrest
          refine ⟨.getChildren p.1.zk path a :: ops, ?_, fun g children hmem => ?_,
            p.1.zk, a, by simp, hret⟩
          · rw [hops, hlog]
            simp
          · simp only [List.mem_cons, reduceCtorEq, false_or] at hmem
            exact hquiet g children hmem
      · obtain ⟨-, rfl⟩ := pure_eq_some.mp hrest
        exact ⟨_, hlog, by simp, p.1.zk, a, by simp, hret⟩

theorem fetchChildren_refused {f : Option Nat} {s t : ZookeeperClient}
    {answers : List Answer} (hzk : s.zk ≠ none)
    (h : exec (fetchChildren path f) s answers = some (false, t)) :
    ∃ ops, t.log = s.log ++ ops ∧ (∀ g children, .notify g children ∉ ops) ∧
      ∃ zh a, .getChildren zh path a ∈ ops ∧ a.ret ≠ zOk := by
  obtain ⟨zk, m, hview, hrest⟩ := bind_eq_some.mp (exec_eq_some.mp h)
  obtain ⟨rfl, rfl⟩ := view_eq_some.mp hview
  rw [if_neg hzk] at hrest
  exact watchLoop_refused hrest

end Asking

section Steps

variable {path : Bytes} {key cb : Nat} {s s' : ZookeeperClient} {zh : Nat} {list : List Bytes}

theorem newOps_eq {ops : List Op} (h : s'.log = s.log ++ ops) : newOps s s' = ops := by
  rw [newOps, h, List.drop_left]

theorem watched_iff (h : Asks path key cb s s') :
    Watched s' path key cb ↔ Watched s path key cb := by
  rw [Watched, Watched, h.watchers]

/-- The list was given out by a method on this handle. -/
def Given (s s' : ZookeeperClient) (zh : Nat) (path : Bytes) (list : List Bytes) : Prop :=
  ∃ a, .getChildren (some zh) path a ∈ newOps s s' ∧ a.ret = zOk ∧ a.children = list

/-- What a callback knows after a method was given out in it or known before. -/
theorem Asks.given (h : Asks path key cb s s') (honly : OnlyAt path key cb s)
    (hzk : s'.zk = some zh) (ht : told path cb s'.log = some list) : Given s s' zh path list ∨
    (told path cb s.log = some list ∧ (∀ children, .notify cb children ∉ newOps s s') ∧
      ∀ zh a, .getChildren zh path a ∈ newOps s s' → a.ret = zOk) := by
  obtain ⟨ops, hlog, hops⟩ := h.grows
  rw [hlog] at ht
  rw [Given, newOps_eq hlog]
  refine (told_append ht).imp (fun hnow => ?_) id
  obtain ⟨a, hget, ha⟩ := hops honly list hnow
  rw [← h.zk, hzk] at hget
  exact ⟨a, hget, ha⟩

/-- A method that asks for the children of a watched path tells the callback, or it is refused. -/
theorem Tried.given (htried : Tried path s s') (h : Asks path key cb s s')
    (hserved : Served path key cb s s')
    (hw : Watched s path key cb) (honly : OnlyAt path key cb s) (hzk : s'.zk = some zh)
    (ht : told path cb s'.log = some list) :
    Given s s' zh path list := by
  rcases h.given honly hzk ht with hgiven | ⟨-, hquiet, hgood⟩
  · exact hgiven
  · obtain ⟨ops, hlog, zh', a, hget⟩ := htried
    obtain ⟨ops', hlog', htold⟩ := hserved.grows
    rw [newOps_eq hlog] at hquiet hgood
    obtain rfl : ops' = ops := by rw [← newOps_eq hlog', newOps_eq hlog]
    exact absurd (htold hw a.children ⟨zh', a, hget, hgood zh' a hget, rfl⟩) (hquiet a.children)

/-- What is known to `cb` after a step of the client: a list given out in the step, or the
list from before, and then no notice of the path was dropped. -/
structure Known (path : Bytes) (key cb : Nat) (s s' : ZookeeperClient) : Prop where
  onlyAt : OnlyAt path key cb s'
  given : ∀ zh list, Watched s' path key cb → s'.zk = some zh → told path cb s'.log = some list →
    Given s s' zh path list ∨
    (Watched s path key cb ∧ s.zk = some zh ∧ told path cb s.log = some list ∧
      (Queued s path → Queued s' path))

theorem Asks.known (h : Asks path key cb s s') (honly : OnlyAt path key cb s) :
    Known path key cb s s' where
  onlyAt := h.onlyAt honly
  given zh list hw hzk ht := by
    refine (h.given honly hzk ht).imp id fun hold => ⟨(watched_iff h).mp hw, ?_, hold.1, ?_⟩
    · rw [← h.zk]
      exact hzk
    · rw [Queued, Queued, h.chan]
      exact id

theorem onlyAt_setWatchers {p : Bytes} {m : WatcherMap} (honly : OnlyAt path key cb s)
    (hm : ∀ k, m[k]? = some cb → (s.watchersAt p)[k]? = some cb ∨ (p = path ∧ k = key)) :
    OnlyAt path key cb (s.setWatchers p m) := by
  intro q k hk
  rw [watchersAt_setWatchers] at hk
  split at hk
  · subst q
    exact (hm k hk).elim (honly p k) id
  · exact honly q k hk

theorem getElem?_of_erase {m : WatcherMap} {k k' : Nat} (h : (m.erase k)[k']? = some cb) :
    k ≠ k' ∧ m[k']? = some cb := by
  rw [Std.ExtTreeMap.getElem?_erase] at h
  split at h
  · cases h
  · rename_i hne
    exact ⟨by simpa using hne, h⟩

theorem getElem?_of_insert {m : WatcherMap} {k k' f : Nat} (h : (m.insert k f)[k']? = some cb) :
    (k = k' ∧ f = cb) ∨ m[k']? = some cb := by
  rw [Std.ExtTreeMap.getElem?_insert] at h
  split at h
  · rename_i heq
    exact .inl ⟨by simpa using heq, Option.some.inj h⟩
  · exact .inr h

/-- The second state may have fewer watchers; for the rest it is the same to the callback. -/
theorem Known.shrink {t u : ZookeeperClient} (h : Known path key cb s t)
    (hwatch : OnlyAt path key cb u)
    (hw : Watched u path key cb → Watched t path key cb) (hlog : u.log = t.log) (hzk : u.zk = t.zk)
    (hchan : u.eventChan = t.eventChan) :
    Known path key cb s u := by
  refine ⟨hwatch, fun zh list hwu hzh htold => ?_⟩
  rw [hlog] at htold
  rw [hzk] at hzh
  have hnew : newOps s u = newOps s t := by rw [newOps, newOps, hlog]
  rw [Given, hnew, show Queued u path ↔ Queued t path by rw [Queued, Queued, hchan]]
  exact h.given zh list (hw hwu) hzh htold

/-- The entry of another callback is nothing to `cb`. -/
theorem Known.insert {t : ZookeeperClient} {p : Bytes} {k f : Nat} (hf : f ≠ cb)
    (h : Known path key cb (s.setWatchers p ((s.watchersAt p).insert k f)) t) :
    Known path key cb s t := by
  refine ⟨h.onlyAt,
    fun zh list hw hzh htold => (h.given zh list hw hzh htold).imp id fun hold => ⟨?_, hold.2⟩⟩
  have hws := hold.1
  rw [Watched, watchersAt_setWatchers] at hws
  split at hws
  · subst p
    exact (getElem?_of_insert hws).elim (fun hnew => absurd hnew.2 hf) id
  · exact hws

/-- `Watch` of the callback itself, with a session: when the children were fetched the entry
is thrown out, and otherwise the server has refused them. -/
theorem known_watch_self {t : ZookeeperClient} {answers : List Answer}
    {fetched : Bool} (hzk : s.zk ≠ none)
    (hfetch : exec (fetchChildren path (some cb)) s answers = some (fetched, t))
    (ht : OnlyAt path key cb t) (r : ZookeeperClient) : Known path key cb r
      (if fetched then t.setWatchers path ((t.watchersAt path).erase key) else t) := by
  cases fetched with
  | true =>
    rw [if_pos rfl]
    refine ⟨onlyAt_setWatchers ht fun k hk => .inl (getElem?_of_erase hk).2, fun zh list hw => ?_⟩
    rw [Watched, watchersAt_setWatchers, if_pos rfl] at hw
    exact absurd rfl (getElem?_of_erase hw).1
  | false =>
    refine ⟨ht, fun zh list _ _ htold => ?_⟩
    obtain ⟨ops, hlog, hquiet, zh', a, hget, hret⟩ := fetchChildren_refused hzk hfetch
    rw [if_neg (by simp), hlog] at htold
    rcases told_append htold with hnow | ⟨-, -, hgood⟩
    · exact absurd hnow (hquiet cb list)
    · exact absurd (hgood zh' a hget) hret

theorem known_watch {p : Bytes} {f k : Nat} {answers : List Answer} {ok : Bool}
    (hf : f = cb → p = path ∧ k = key) (honly : OnlyAt path key cb s)
    (h : exec (watch p f k) s answers = some (ok, s')) :
    Known path key cb s s' := by
  have hinsert : OnlyAt path key cb (s.setWatchers p ((s.watchersAt p).insert k f)) := by
    refine onlyAt_setWatchers honly fun k' hk' => ?_
    rcases getElem?_of_insert hk' with ⟨rfl, hcb⟩ | hold
    · exact .inr (hf hcb)
    · exact .inl hold
  rcases watch_cases h with ⟨-, -, rfl⟩ | ⟨-, hzk, -, rfl⟩ | ⟨-, hzk, fetched, t, hfetch, -, rfl⟩
  · refine Asks.known (asks_core rfl (fun q => ?_) rfl rfl) honly
    rw [watchersAt_setWatchers]
    split
    · subst q
      rfl
    · rfl
  · refine ⟨hinsert, fun zh list hw hzk' => ?_⟩
    rw [show (s.setWatchers p _).zk = s.zk from rfl, hzk] at hzk'
    cases hzk'
  · have hany {g : Nat} (hg : f ≠ g) :
        Asks path key g (s.setWatchers p ((s.watchersAt p).insert k f)) t :=
      ((asks_frame (by simpa using hg)).respects_fetchChildren p).exec hfetch
    have ht : OnlyAt path key cb t := by
      intro q k' hk'
      rw [(hany (g := f + 1) (by omega)).watchers] at hk'
      exact hinsert q k' hk'
    by_cases hcb : f = cb
    · subst hcb
      obtain ⟨rfl, rfl⟩ := hf rfl
      exact known_watch_self (by exact hzk) hfetch ht s
    · refine (((hany hcb).known hinsert).shrink ?_ ?_ ?_ ?_ ?_).insert hcb
      · split
        · exact onlyAt_setWatchers ht fun k' hk' => .inl (getElem?_of_erase hk').2
        · exact ht
      · split
        · intro hw
          rw [Watched, watchersAt_setWatchers] at hw
          split at hw
          · subst p
            exact (getElem?_of_erase hw).2
          · exact hw
        · exact id
      all_goals split <;> rfl

theorem known_unwatch {p : Bytes} {k : Nat} {u : Unit} (honly : OnlyAt path key cb s)
    (h : exec (unwatch p k) s [] = some (u, s')) : Known path key cb s s' := by
  have hs' := congrArg Prod.fst (update_eq_some.mp (exec_eq_some.mp h))
  simp only at hs'
  subst hs'
  have hself : Known path key cb s s := (asks_core rfl (fun _ => rfl) rfl rfl).known honly
  split
  · exact hself
  · rename_i m hm
    have hat : s.watchersAt p = m := by
      rw [ZookeeperClient.watchersAt, hm]
      rfl
    refine hself.shrink (onlyAt_setWatchers honly fun k' hk' => .inl ?_) (fun hw => ?_) rfl rfl rfl
    · rw [hat]
      exact (getElem?_of_erase hk').2
    · rw [Watched, watchersAt_setWatchers] at hw
      split at hw
      · subst p
        rw [Watched, hat]
        exact (getElem?_of_erase hw).2
      · exact hw

/-- A child event is handled; one of another path leaves the queue of this one alone. -/
theorem known_child {p : Bytes} {rest : List Event} {answers : List Answer} {ok : Bool}
    (honly : OnlyAt path key cb s)
    (hqueue : p ≠ path → Queued s path → ∃ e ∈ rest, e.type = zooChildEvent ∧ e.path = path)
    (h : exec (fetchChildren p none) { s with eventChan := rest } answers = some (ok, s')) :
    Known path key cb s s' := by
  have hf : FetchFrame (Asks path key cb) none := asks_frame (by simp)
  have hasks : Asks path key cb { s with eventChan := rest } s' :=
    (hf.respects_fetchChildren p).exec h
  refine ⟨hasks.onlyAt honly, fun zh list hw hzk htold => ?_⟩
  by_cases hpath : p = path
  · subst hpath
    have hw' := (watched_iff hasks).mp hw
    have hsome : s.zk ≠ none := by
      rw [show s.zk = s'.zk from hasks.zk.symm, hzk]
      simp
    refine .inl ((fetchChildren_tried hsome (exec_eq_some.mp h)).given hasks ?_ hw' honly hzk htold)
    exact (served_frame.respects_fetchChildren p).exec h
  · refine ((hasks.known honly).given zh list hw hzk htold).imp id fun hold =>
      ⟨hold.1, hold.2.1, hold.2.2.1, fun hq => ?_⟩
    obtain ⟨e, hmem, he⟩ := hqueue hpath hq
    have hchan : s'.eventChan = rest := hasks.chan
    exact ⟨e, by rwa [hchan], he⟩

/-- Every method but the event loop drops no event. -/
theorem known_onWatch {e : Event} {rest : List Event} {answers : List Answer} {u : Unit}
    (hchan : s.eventChan = e :: rest) (honly : OnlyAt path key cb s)
    (h : exec (onWatch e) { s with eventChan := rest } answers = some (u, s')) :
    Known path key cb s s' := by
  have hf : FetchFrame (Asks path key cb) none := asks_frame (by simp)
  have hqueue (he : ¬ (e.type = zooChildEvent ∧ e.path = path)) (hq : Queued s path) :
      ∃ e ∈ rest, e.type = zooChildEvent ∧ e.path = path := by
    obtain ⟨e', hmem, he'⟩ := hq
    rw [hchan, List.mem_cons] at hmem
    exact ⟨e', hmem.resolve_left fun heq => he (heq ▸ he'), he'⟩
  unfold onWatch at h
  split at h
  · rename_i htype
    split at h
    · -- a new session asks for the children of each path
      have hasks : Asks path key cb { s with eventChan := rest, zk := some e.zh } s' :=
        hf.respects_onConnected h
      refine ⟨hasks.onlyAt honly, fun zh list hw hzk htold => .inl ?_⟩
      have hw' := (watched_iff hasks).mp hw
      exact (onConnected_tried (by exact hw') h).given hasks (served_frame.respects_onConnected h)
        hw' honly hzk htold
    · have hs' := congrArg Prod.fst (update_eq_some.mp (exec_eq_some.mp h))
      simp only at hs'
      subst hs'
      unfold onLost
      split
      · exact ⟨honly, by rintro zh list - ⟨⟩⟩
      · rename_i hnone
        refine ⟨honly, fun zh list _ hzk => ?_⟩
        rw [show _ = _ from hnone] at hzk
        cases hzk
  · split at h
    · obtain ⟨ok, m, hfetch, hpure⟩ := bind_eq_some.mp (exec_eq_some.mp h)
      obtain ⟨-, rfl⟩ := pure_eq_some.mp hpure
      exact known_child honly (fun hne => hqueue fun he => hne he.2) (exec_eq_some.mpr hfetch)
    · rename_i htype hchild
      obtain ⟨-, hp⟩ := pure_eq_some.mp (exec_eq_some.mp h)
      cases hp
      exact ⟨honly, fun zh list hw hzk htold => .inr ⟨hw, hzk, htold, hqueue fun he => hchild he.1⟩⟩

/-- One step of the client. -/
theorem known_step {act : Action}
    (hact : ∀ p k answers, act = .watch p cb k answers → p = path ∧ k = key)
    (honly : OnlyAt path key cb s) (h : Zookeeper.step s act = some s') :
    Known path key cb s s' := by
  have hf : FetchFrame (Asks path key cb) none := asks_frame (by simp)
  have hself : Known path key cb s s := (asks_core rfl (fun _ => rfl) rfl rfl).known honly
  cases step_cases h with
  | connect ok hleft =>
    unfold connect
    split
    · exact hself.shrink honly id rfl rfl rfl
    · exact hself
  | @enqueue e hopen hroom =>
    refine ⟨honly, fun zh list hw hzk htold => .inr ⟨hw, hzk, htold, ?_⟩⟩
    rintro ⟨e', hmem, he'⟩
    exact ⟨e', List.mem_append_left _ hmem, he'⟩
  | onWatch hchan ht => exact known_onWatch hchan honly ht
  | @retry p _ _ _ hmem ht =>
    have hasks := (hf.respects_retry p).exec ht
    refine (asks_trans s _ _ ?_ hasks).known honly
    exact asks_core rfl (fun _ => rfl) rfl rfl
  | @watch p f k answers ok _ ht =>
    refine known_watch (fun hcb => ?_) honly ht
    subst hcb
    exact hact p k answers rfl
  | unwatch ht => exact known_unwatch honly ht
  | @createNode p flags recursive _ _ _ ht =>
    exact ((hf.respects_createNode p flags recursive).exec ht).known honly
  | @delayCreateEphemeralNode p _ _ _ ht =>
    exact ((hf.respects_delayCreateEphemeralNode p).exec ht).known honly
  | @deleteNode p _ _ _ ht =>
    refine Asks.known (Respects.exec (hf.respects_deleteNode (fun s p ret => ?_) p) ht) honly
    exact asks_of_op _ rfl rfl rfl rfl (by rintro children ⟨⟩)

end Steps

section Worlds

variable {path : Bytes} {key cb : Nat}

/-- The list that a registered callback was told last on this session is current, or a
notice waits in the channel. -/
def UpToDate (path : Bytes) (key cb : Nat) (w : World) : Prop :=
  ∀ zh list, Watched w.client path key cb → w.client.zk = some zh →
  told path cb w.client.log = some list →
    Current w.server zh path list ∨ Queued w.client path

/-- The delivery of an event moves a notice from the way to the channel. -/
theorem current_deliver {srv srv' : Server} {act : Action} {s s' : ZookeeperClient}
    {zh : Nat} {list : List Bytes}
    (hdeliver : deliver srv act = some srv') (h : Zookeeper.step s act = some s')
    (hcur : Current srv zh path list) :
    Current srv' zh path list ∨ Queued s' path := by
  cases step_cases h with
  | @enqueue e hopen hroom =>
    simp only [deliver] at hdeliver
    split at hdeliver
    · rename_i htype
      split at hdeliver
      · cases hdeliver
        refine hcur.elim (fun hleft => .inl (.inl hleft)) fun hflying => ?_
        by_cases hsame : (zh, path) = (e.zh, e.path)
        · cases hsame
          exact .inr ⟨e, by simp, htype, rfl⟩
        · exact .inl (.inr ((List.mem_erase_of_ne hsame).mpr hflying))
      · cases hdeliver
    · cases hdeliver
      exact .inl hcur
  | _ =>
    cases hdeliver
    exact .inl hcur

theorem upToDate_step {w w' : World} {act : Act} (hact : Respected path key cb act)
    (hw : OnlyAt path key cb w.client ∧ UpToDate path key cb w) (h : w.step act = some w') :
    OnlyAt path key cb w'.client ∧ UpToDate path key cb w' := by
  obtain ⟨honly, hup⟩ := hw
  cases act with
  | change p now =>
    cases h
    refine ⟨honly, fun zh list hwatch hzk htold => ?_⟩
    exact (hup zh list hwatch hzk htold).imp (current_change hact) id
  | client act exchanges =>
    obtain ⟨hone, hkeep⟩ := hact
    obtain ⟨srv, hdeliver, h⟩ := Option.bind_eq_some_iff.mp h
    obtain ⟨client, hstep, h⟩ := Option.bind_eq_some_iff.mp h
    obtain ⟨srv', hserve, rfl⟩ := Option.map_eq_some_iff.mp h
    have hknown := known_step hone honly hstep
    refine ⟨hknown.onlyAt, fun zh list hwatch hzk htold => ?_⟩
    rcases hknown.given zh list hwatch hzk htold with
      ⟨a, hget, hret, rfl⟩ | ⟨hwatch', hzk', htold', hqueued⟩
    · exact .inl (current_of_get hkeep hserve hget hret)
    · rcases hup zh list hwatch' hzk' htold' with hcur | hq
      · exact (current_deliver hdeliver hstep hcur).imp (current_serve hkeep hserve) id
      · exact .inr (hqueued hq)

theorem upToDate_run {acts : List Act} {w : World} (hacts : ∀ act ∈ acts, Respected path key cb act)
    (h : run World.step .init acts = some w) :
    UpToDate path key cb w := by
  have hguard : Guarded World.step (fun _ act => Respected path key cb act) .init acts := by
    intro pre act post m hacts' _
    exact hacts act (by simp [hacts'])
  refine (guarded_invariant (I := fun w => OnlyAt path key cb w.client ∧ UpToDate path key cb w) ?_
    (fun w act w' hI hact hs => upToDate_step hact hI hs) hguard h).2
  exact ⟨by rintro p k ⟨⟩, by rintro zh list ⟨⟩⟩

/-- A registered callback has been told the present children, with a watch set for the next
change, or a notice is under way to it; so no change of the children is lost. -/
theorem children_upToDate (acts : List Act) (w : World) (zh : Nat) (list : List Bytes)
    (hacts : ∀ act ∈ acts, Respected path key cb act) (h : run World.step .init acts = some w)
    (hwatch : Watched w.client path key cb) (hzk : w.client.zk = some zh)
    (htold : told path cb w.client.log = some list) :
    Current w.server zh path list ∨ Queued w.client path :=
  upToDate_run hacts h zh list hwatch hzk htold

/-- The second change finds no watch, and the third one comes right after the list was given out. -/
def changesRun : List Act :=
  [.client (.watch samplePath 7 1 []) [], .change samplePath (some [[98]]),
    .client (.connect true) [], .client (.enqueue ⟨0, zooSessionEvent, zooConnectedState, []⟩) [],
    .client (.onWatch [⟨zOk, [[98]]⟩]) [.call, .call], .change samplePath (some [[98], [99]]),
    .client (.enqueue ⟨0, zooChildEvent, zooConnectedState, samplePath⟩) [],
      .change samplePath (some [[99]]),
    .client (.onWatch [⟨zOk, [[99]]⟩]) [.call, .change samplePath (some []), .call]]

theorem children_upToDate_changes : ∃ w, run World.step .init changesRun = some w ∧
    (Current w.server 0 samplePath [[99]] ∨ Queued w.client samplePath) := by
  obtain ⟨w, hw, hend⟩ := run_exists World.step .init changesRun
    (fun w => decide ((w.client.watchersAt samplePath)[1]? = some 7 ∧ w.client.zk = some 0 ∧
      told samplePath 7 w.client.log = some [[99]])) (by decide +kernel)
  obtain ⟨hwatch, hzk, htold⟩ := of_decide_eq_true hend
  refine ⟨w, hw, children_upToDate changesRun w 0 [[99]] ?_ hw hwatch hzk htold⟩
  simp only [changesRun, Respected, List.forall_mem_cons, Action.watch.injEq]
  refine ⟨⟨?_, by decide⟩, by simp⟩
  rintro p k answers ⟨rfl, -, rfl, -⟩
  exact ⟨rfl, rfl⟩

end Worlds

end Ucorf.ZookeeperChildren
