import Ucorf.FinderEvents
import Ucorf.FinderReconcile
import Ucorf.ZookeeperChildren

/-!
# Discovery

The finder's callback gets the children lists of its zookeeper client one after the other
and turns each into connections, while its own threads go on. When no notice is under way
and the last list was applied, `transports_` has the urls of the present children.
-/
namespace Ucorf.Discovery

open Ucorf.Message
open Ucorf.Threads
open Ucorf.Zookeeper
open Ucorf.ZookeeperUrl
open Ucorf.ZookeeperWatch
open Ucorf.ZookeeperChildren
open Ucorf.Finder
open Ucorf.FinderSections
open Ucorf.FinderEvents
open Ucorf.FinderReconcile

structure Deployment where
  world : World
  finder : Finder.State

/-- The lists that the callback is called with. -/
def calls (cb : Nat) (log : List Op) : List (List Bytes) :=
  log.filterMap fun op => match op with
    | .notify f children => if f = cb then some children else none
    | _ => none

def childsOf : Thread → Option (List Bytes × ChildsPc)
  | .childs nodes pc => some (nodes, pc)
  | _ => none

/-- The children notifications of the finder, in order. -/
def notifications (m : Finder.State) : List (List Bytes × ChildsPc) := m.threads.filterMap childsOf

def isReturned : ChildsPc → Bool
  | .returned _ => true
  | _ => false

inductive Act where
  | world : ZookeeperChildren.Act → Act
  | finder : Threads.Action Thread Label → Act
  deriving DecidableEq

/-- `OnWatch` calls the callbacks one after the other, so a notification starts with the
next list when the ones before it have returned. -/
def mayStart (cb : Nat) (d : Deployment) : Threads.Action Thread Label → Bool
  | .spawn (.childs nodes _) =>
    decide ((calls cb d.world.client.log)[(notifications d.finder).length]? = some nodes) &&
      (notifications d.finder).all fun n => isReturned n.2
  | _ => true

def step (cb : Nat) (d : Deployment) : Act → Option Deployment
  | .world act => (d.world.step act).map fun w => { d with world := w }
  | .finder act =>
    if mayStart cb d act then (program.step d.finder act).map fun m =>
      { d with finder := m } else none

/-- Before the first event, with the finder in zk mode. -/
def init (onDisconnect : Bool) (url : Bytes) : Deployment := ⟨.init, start onDisconnect .zk url⟩

/-- The notification has replaced `transports_`. -/
def applied : ChildsPc → Bool
  | .shutting _ => true
  | .leaving e => e = .applied
  | .returned e => e = .applied
  | _ => false

section Notifications

variable {m m' : Finder.State} {act : Threads.Action Thread Label} {s s' : ServerFinder}
    {self : Nat} {t t' : Thread}
  {new : List Thread} {a : Label}

/-- Across a section of another thread `transports_` stays. Across one of a notification it
stays, or it gets the urls of the list. -/
theorem childs_next (h : Section s self t a s' t' new) :
    (childsOf t = none ∧ childsOf t' = none ∧ s'.transports = s.transports) ∨
    ∃ nodes pc pc', t = .childs nodes pc ∧ t' = .childs nodes pc' ∧ isReturned pc = false ∧
      ((s'.transports = s.transports ∧ (applied pc' = true → applied pc = true)) ∨
        ∀ url, url ∈ s'.transports ↔ url ∈ nodes.map zookeeperNode2Url) := by
  cases h with
  | contended _ hc =>
    cases hc with
    | childs => exact .inr ⟨_, _, _, rfl, rfl, rfl, .inl ⟨rfl, by simp [applied]⟩⟩
    | disc => exact .inl ⟨rfl, rfl, rfl⟩
    | retry => exact .inl ⟨rfl, rfl, rfl⟩
  | acquired _ hc =>
    cases hc with
    | childs => exact .inr ⟨_, _, _, rfl, rfl, rfl, .inl ⟨rfl, by simp [applied]⟩⟩
    | disc => exact .inl ⟨rfl, rfl, rfl⟩
    | retry => exact .inl ⟨rfl, rfl, rfl⟩
  | dead _ hl =>
    cases hl with
    | childs => exact .inr ⟨_, _, _, rfl, rfl, rfl, .inl ⟨rfl, by simp [applied]⟩⟩
    | disc => exact .inl ⟨rfl, rfl, rfl⟩
    | retry => exact .inl ⟨rfl, rfl, rfl⟩
  | released hr =>
    cases hr with
    | shut => exact .inr ⟨_, _, _, rfl, rfl, rfl, .inl ⟨rfl, by simp [applied]⟩⟩
    | childs => exact .inr ⟨_, _, _, rfl, rfl, rfl, .inl ⟨rfl, id⟩⟩
    | _ => exact .inl ⟨rfl, rfl, rfl⟩
  | apply htoken => exact .inr ⟨_, _, _, rfl, rfl, rfl, .inr (mem_reconcile _ _)⟩
  | shutdown => exact .inr ⟨_, _, _, rfl, rfl, rfl, .inl ⟨rfl, id⟩⟩
  | call => exact .inl ⟨rfl, rfl, by split <;> rfl⟩
  | _ => exact .inl ⟨rfl, rfl, rfl⟩

/-- What a step does to the notifications. -/
inductive Told (m m' : Finder.State) (act : Threads.Action Thread Label) : Prop where
  | same : notifications m' = notifications m →
      m'.shared.transports = m.shared.transports → Told m m' act
  | started {nodes : List Bytes} : act = .spawn (.childs nodes .notified) →
      notifications m' = notifications m ++ [(nodes, .notified)] →
      m'.shared.transports = m.shared.transports →
      Told m m' act
  | went {pre post : List (List Bytes × ChildsPc)} {nodes : List Bytes} {pc pc' : ChildsPc} :
      notifications m = pre ++ (nodes, pc) :: post →
      notifications m' = pre ++ (nodes, pc') :: post →
      isReturned pc = false →
      (m'.shared.transports = m.shared.transports ∧ (applied pc' = true → applied pc = true)) ∨
      Applied nodes m' →
      Told m m' act

theorem told_step (h : program.step m act = some m') : Told m m' act := by
  cases act with
  | spawn u =>
    obtain ⟨hstart, rfl⟩ := step_spawn h
    cases u with
    | childs nodes pc =>
      cases pc with
      | notified => exact .started rfl (by simp [notifications, childsOf]) rfl
      | _ => cases hstart
    | _ => exact .same (by simp [notifications, childsOf]) rfl
  | run i a =>
    obtain ⟨t, shared, t', new, hi, hn, rfl⟩ := step_run h
    have hsection := next_section hn
    have hnew : new.filterMap childsOf = [] := by
      rw [List.filterMap_eq_nil_iff]
      intro u hu
      obtain ⟨tp, url, rfl⟩ := new_section hsection u hu
      rfl
    obtain ⟨hlt, hget⟩ := List.getElem?_eq_some_iff.mp hi
    have hsplit : m.threads = m.threads.take i ++ t :: m.threads.drop (i + 1) := by
      rw [← hget, List.getElem_cons_drop, List.take_append_drop]
    have hset : m.threads.set i t' = m.threads.take i ++ t' :: m.threads.drop (i + 1) := by
      rw [List.set_eq_take_append_cons_drop, if_pos hlt]
    rcases childs_next hsection with ⟨ht, ht', hsame⟩ | ⟨nodes, pc, pc', rfl, rfl, hpc, hcase⟩
    · refine .same ?_ hsame
      rw [notifications, notifications, List.filterMap_append, hnew, List.append_nil, hset]
      conv => rhs; rw [hsplit]
      simp [ht, ht']
    · refine @Told.went _ _ _ ((m.threads.take i).filterMap childsOf)
        ((m.threads.drop (i + 1)).filterMap childsOf)
        nodes pc pc' ?_ ?_ hpc hcase
      · rw [notifications]
        conv => lhs; rw [hsplit]
        simp [childsOf]
      · rw [notifications, List.filterMap_append, hnew, List.append_nil, hset]
        simp [childsOf]

/-- One notification at most is under way, the last one, and once that has been applied
`transports_` has its urls. -/
structure Serial (m : Finder.State) : Prop where
  returned : ∀ n ∈ (notifications m).dropLast, isReturned n.2 = true
  applied : ∀ nodes pc, (notifications m).getLast? = some (nodes, pc) →
    applied pc = true → Applied nodes m

theorem serial_step (hs : Serial m) (hstart : ∀ nodes, act = .spawn (.childs nodes .notified) →
      ∀ n ∈ notifications m, isReturned n.2 = true)
    (h : program.step m act = some m') :
    Serial m' := by
  cases told_step h with
  | same hnotes htransports =>
    refine ⟨by rw [hnotes]; exact hs.returned, fun nodes pc hlast hpc => ?_⟩
    rw [hnotes] at hlast
    rw [Applied, htransports]
    exact hs.applied nodes pc hlast hpc
  | started hact hnotes _ =>
    refine ⟨?_, fun nodes pc hlast hpc => ?_⟩
    · rw [hnotes, List.dropLast_concat]
      exact hstart _ hact
    · rw [hnotes, List.getLast?_concat] at hlast
      cases hlast
      cases hpc
  | @went pre post nodes pc pc' hold hnew hpc hcase =>
    -- the one that goes has not returned, so it is the last
    obtain rfl : post = [] := by
      by_contra hne
      have hmem : (nodes, pc) ∈ (notifications m).dropLast := by
        rw [hold, List.dropLast_append_of_ne_nil (by simp), List.dropLast_cons_of_ne_nil hne]
        simp
      rw [hs.returned _ hmem] at hpc
      cases hpc
    refine ⟨?_, fun nodes' pc'' hlast hpc'' => ?_⟩
    · rw [hnew, List.dropLast_concat]
      have hreturned := hs.returned
      rwa [hold, List.dropLast_concat] at hreturned
    · rw [hnew, List.getLast?_concat] at hlast
      cases hlast
      rcases hcase with ⟨htransports, happlied⟩ | hdone
      · rw [Applied, htransports]
        exact hs.applied nodes pc (by rw [hold, List.getLast?_concat]) (happlied hpc'')
      · exact hdone

end Notifications

section Runs

variable {cb : Nat} {d d' : Deployment}

theorem calls_append (cb : Nat) (log ops : List Op) :
    calls cb (log ++ ops) = calls cb log ++ calls cb ops :=
  List.filterMap_append

/-- What the callback was told last is its last call. -/
theorem last_of_told {path : Bytes} {log : List Op} {list : List Bytes}
    (h : told path cb log = some list) : (calls cb log).getLast? = some list := by
  induction log using List.reverseRecOn with
  | nil => cases h
  | append_singleton log op ih =>
    rw [told, List.foldl_append, List.foldl_cons, List.foldl_nil] at h
    rw [calls_append]
    cases op with
    | notify f children =>
      simp only [hear] at h
      split at h
      · rename_i hf
        cases h
        simp [calls, hf]
      · rename_i hf
        simpa [calls, hf] using ih h
    | getChildren zh p a =>
      simp only [hear] at h
      split at h
      · cases h
      · simpa [calls] using ih h
    | create => simpa [calls] using ih h
    | delete => simpa [calls] using ih h

/-- The finder has started with a part of the calls, one after the other. -/
structure Sound (cb : Nat) (d : Deployment) : Prop where
  serial : Serial d.finder
  handed : (notifications d.finder).map Prod.fst <+: calls cb d.world.client.log

theorem world_grows {w w' : World} {act : ZookeeperChildren.Act} (h : w.step act = some w') :
    Grows w.client w'.client := by
  cases act with
  | change p now =>
    cases h
    exact (grows_frame none).refl _
  | client act exchanges =>
    obtain ⟨srv, -, h⟩ := Option.bind_eq_some_iff.mp h
    obtain ⟨client, hstep, h⟩ := Option.bind_eq_some_iff.mp h
    obtain ⟨srv', -, rfl⟩ := Option.map_eq_some_iff.mp h
    exact grows_step hstep

theorem client_grows {act : Act} (h : step cb d act = some d') :
    Grows d.world.client d'.world.client := by
  cases act with
  | world act =>
    obtain ⟨w, hw, rfl⟩ := Option.map_eq_some_iff.mp h
    exact world_grows hw
  | finder act =>
    simp only [step] at h
    split at h
    · obtain ⟨m, -, rfl⟩ := Option.map_eq_some_iff.mp h
      exact (grows_frame none).refl _
    · cases h

theorem sound_step (hs : Sound cb d) {act : Act} (h : step cb d act = some d') : Sound cb d' := by
  cases act with
  | world act =>
    obtain ⟨w, hw, rfl⟩ := Option.map_eq_some_iff.mp h
    obtain ⟨ops, hops⟩ := world_grows hw
    refine ⟨hs.serial, hs.handed.trans ?_⟩
    rw [hops, calls_append]
    exact List.prefix_append _ _
  | finder act =>
    simp only [step] at h
    split at h
    · rename_i hmay
      obtain ⟨m, hm, rfl⟩ := Option.map_eq_some_iff.mp h
      have hstart {nodes : List Bytes} (hact : act = .spawn (.childs nodes .notified)) :
          (calls cb d.world.client.log)[(notifications d.finder).length]? = some nodes ∧
          ∀ n ∈ notifications d.finder, isReturned n.2 = true := by
        subst hact
        obtain ⟨hnext, hall⟩ := (Bool.and_eq_true _ _).mp hmay
        exact ⟨of_decide_eq_true hnext, List.all_eq_true.mp hall⟩
      refine ⟨serial_step hs.serial (fun nodes hact => (hstart hact).2) hm, ?_⟩
      cases told_step hm with
      | same hnotes _ =>
        rw [hnotes]
        exact hs.handed
      | started hact hnotes _ =>
        -- the list that follows those handed over
        obtain ⟨rest, hrest⟩ := hs.handed
        have hnext := (hstart hact).1
        rw [← hrest, List.getElem?_append_right (by simp), List.length_map, Nat.sub_self] at hnext
        obtain ⟨tail, rfl⟩ : ∃ tail, rest = _ :: tail := by
          cases rest with
          | nil => cases hnext
          | cons x tail =>
            cases hnext
            exact ⟨tail, rfl⟩
        rw [hnotes, List.map_append]
        exact ⟨tail, by rw [← hrest]; simp⟩
      | went hold hnew _ _ =>
        have hhanded := hs.handed
        rw [hold] at hhanded
        rw [hnew]
        simpa using hhanded
    · cases h

theorem sound_run {acts : List Act} {onDisconnect : Bool} {url : Bytes}
    (h : run (step cb) (init onDisconnect url) acts = some d) : Sound cb d := by
  refine run_invariant (I := Sound cb) ?_ (fun d act d' hs hd => sound_step hs hd) h
  exact ⟨⟨by simp [notifications, init, start], by simp [notifications, init, start]⟩,
    by simp [notifications, init, start]⟩

theorem mem_notifications {m : Finder.State} {i : Nat} {nodes : List Bytes} {pc : ChildsPc}
    (hi : m.threads[i]? = some (.childs nodes pc)) : nodes ∈ (notifications m).map Prod.fst :=
  List.mem_map.mpr ⟨(nodes, pc), List.mem_filterMap.mpr ⟨_, List.mem_of_getElem? hi, rfl⟩, rfl⟩

theorem filled_step (hs : Sound cb d) {act : Act} (h : step cb d act = some d')
    (hdistinct : ∀ list ∈ calls cb d.world.client.log, list.Nodup) (hf : Filled d.finder.shared) :
    Filled d'.finder.shared := by
  cases act with
  | world act =>
    obtain ⟨w, -, rfl⟩ := Option.map_eq_some_iff.mp h
    exact hf
  | finder act =>
    simp only [step] at h
    split at h
    · obtain ⟨m, hm, rfl⟩ := Option.map_eq_some_iff.mp h
      cases act with
      | spawn u =>
        obtain ⟨-, rfl⟩ := step_spawn hm
        exact hf
      | run i a =>
        obtain ⟨t, shared, t', new, hi, hn, rfl⟩ := step_run hm
        refine filled_section (next_section hn) hf ?_
        rintro nodes pc rfl
        exact hdistinct nodes (hs.handed.subset (mem_notifications hi))
    · cases h

/-- Where the server names each child once, every url but the empty one has its transport. -/
theorem filled_run {acts : List Act} {onDisconnect : Bool} {url : Bytes}
    (h : run (step cb) (init onDisconnect url) acts = some d)
    (hdistinct : ∀ list ∈ calls cb d.world.client.log, list.Nodup) : Filled d.finder.shared := by
  refine trace_invariant (I := fun _ d => (∀ list ∈ calls cb d.world.client.log, list.Nodup) →
    Filled d.finder.shared) ?_ ?_ h hdistinct
  · intro _ u _
    simp [init, start]
  · intro acts d act d' hd hI hstep hdistinct'
    have hbefore : ∀ list ∈ calls cb d.world.client.log, list.Nodup := by
      intro list hlist
      refine hdistinct' list ?_
      obtain ⟨ops, hops⟩ := client_grows hstep
      rw [hops, calls_append]
      exact List.mem_append_left _ hlist
    exact filled_step (sound_run hd) hstep hbefore (hI hbefore)

/-- The actions on the zookeeper side. -/
def worldActs (acts : List Act) : List ZookeeperChildren.Act :=
  acts.filterMap fun act => match act with
    | .world act => some act
    | .finder _ => none

theorem world_run {acts : List Act} (h : run (step cb) d acts = some d') :
    run World.step d.world (worldActs acts) = some d'.world := by
  induction acts generalizing d with
  | nil =>
    cases h
    rfl
  | cons act acts ih =>
    rw [run_cons, Option.bind_eq_some_iff] at h
    obtain ⟨m, hm, hrest⟩ := h
    cases act with
    | world act =>
      obtain ⟨w, hw, rfl⟩ := Option.map_eq_some_iff.mp hm
      show run World.step d.world (act :: worldActs acts) = _
      rw [run_cons, hw, Option.bind_some, ih hrest]
    | finder act =>
      simp only [step] at hm
      split at hm
      · obtain ⟨m', -, rfl⟩ := Option.map_eq_some_iff.mp hm
        have hsame := ih hrest
        exact hsame
      · cases hm

/-- The callback is registered, the server has refused it no list since the last one, no
notice of the path is out, and the finder has applied the last list. -/
structure Settled (path : Bytes) (key cb : Nat) (d : Deployment) : Prop where
  watched : Watched d.world.client path key cb
  told : ∃ list, told path cb d.world.client.log = some list
  quiet : ∃ zh, d.world.client.zk = some zh ∧ (zh, path) ∉ d.world.server.flying
  read : ∀ e ∈ d.world.client.eventChan, ¬ (e.type = zooChildEvent ∧ e.path = path)
  handed : (notifications d.finder).length = (calls cb d.world.client.log).length
  applied : ∃ nodes, (notifications d.finder).getLast? = some (nodes, .returned .applied)

/-- A url as a server gives it to the registry. -/
def Url (url : Bytes) : Prop :=
  ∃ proto addr, Scheme proto ∧ Address addr ∧ url = proto ++ schemeEnd ++ addr

theorem Url.survives {url : Bytes} (h : Url url) :
    zookeeperNode2Url (url2ZookeeperNode url) = url := by
  obtain ⟨proto, addr, hproto, haddr, rfl⟩ := h
  rw [node_of_url hproto haddr, url_of_node hproto.noColon]

theorem Url.noSlash {url : Bytes} (h : Url url) : slash ∉ url2ZookeeperNode url := by
  obtain ⟨proto, addr, hproto, haddr, rfl⟩ := h
  rw [node_of_url hproto haddr]
  exact slash_not_mem_node hproto haddr

/-- What the finder has applied are the present children. -/
theorem transports_settled {path : Bytes} {key cb : Nat} {onDisconnect : Bool}
    {url : Bytes} {acts : List Act}
    {d : Deployment} (hacts : ∀ act ∈ worldActs acts, Respected path key cb act)
    (h : run (step cb) (init onDisconnect url) acts = some d) (hsettled : Settled path key cb d) :
    ∃ children, d.world.server.children[path]? = some children ∧
      ∀ u, u ∈ d.finder.shared.transports ↔ u ∈ children.map zookeeperNode2Url := by
  obtain ⟨list, htold⟩ := hsettled.told
  obtain ⟨zh, hzk, hquiet⟩ := hsettled.quiet
  obtain ⟨nodes, hlast⟩ := hsettled.applied
  have hsound := sound_run h
  have hlist : d.world.server.children[path]? = some list := by
    rcases upToDate_run hacts (world_run h) zh list hsettled.watched hzk
      htold with hcur | ⟨e, hmem, he⟩
    · rcases hcur with ⟨hlist, -⟩ | hflying
      · exact hlist
      · exact absurd hflying hquiet
    · exact absurd he (hsettled.read e hmem)
  have hhanded : (notifications d.finder).map Prod.fst = calls cb d.world.client.log :=
    hsound.handed.eq_of_length (by rw [List.length_map, hsettled.handed])
  have hnodes : nodes = list := by
    have htop := last_of_told htold
    rw [← hhanded, List.getLast?_map, hlast] at htop
    exact Option.some.inj htop
  refine ⟨list, hlist, ?_⟩
  rw [← hnodes]
  exact hsound.serial.applied nodes _ hlast rfl

/-- In every run that has come to rest, the finder has a transport for the url of each
present child and for no other; so it has those of the servers that registered. -/
theorem discovered (path : Bytes) (key cb : Nat) (onDisconnect : Bool)
    (url : Bytes) (acts : List Act)
    (d : Deployment) (hacts : ∀ act ∈ worldActs acts, Respected path key cb act)
    (h : run (step cb) (init onDisconnect url) acts = some d) (hsettled : Settled path key cb d) :
    ∃ children, d.world.server.children[path]? = some children ∧
      (∀ u, u ∈ d.finder.shared.transports ↔ u ∈ children.map zookeeperNode2Url) ∧
      ∀ servers : List Bytes, (∀ u ∈ servers, Url u) →
      (∀ node, node ∈ children ↔ node ∈ servers.map url2ZookeeperNode) →
        ∀ u, u ∈ d.finder.shared.transports ↔ u ∈ servers := by
  obtain ⟨list, hlist, happlied⟩ := transports_settled hacts h hsettled
  refine ⟨list, hlist, happlied, fun servers hurls hservers u => ?_⟩
  rw [happlied, List.mem_map]
  simp only [hservers, List.mem_map]
  constructor
  · rintro ⟨node, ⟨v, hv, rfl⟩, rfl⟩
    rw [(hurls v hv).survives]
    exact hv
  · intro hu
    exact ⟨_, ⟨u, hu, rfl⟩, (hurls u hu).survives⟩

/-- The node `h:U`. -/
def nodeU : Bytes := [104, 58, 85]

/-- A server is there when the session comes up, and another one comes later. -/
def comesRun : List Act :=
  [.world (.client (.watch samplePath 7 1 []) []), .world (.change samplePath (some [nodeU])),
    .world (.client (.connect true) []),
      .world (.client (.enqueue ⟨0, zooSessionEvent, zooConnectedState, []⟩) []),
    .world (.client (.onWatch [⟨zOk, [nodeU]⟩]) [.call, .call]),
      .finder (.spawn (.childs [nodeU] .notified)),
    .world (.change samplePath (some [nodeU, sampleNode])), .finder (.run 0 .tryLock),
      .finder (.run 0 .apply),
    .world (.client (.enqueue ⟨0, zooChildEvent, zooConnectedState, samplePath⟩) []),
      .finder (.run 0 .unlock),
    .world (.client (.onWatch [⟨zOk, [nodeU, sampleNode]⟩]) [.call, .call]),
    .finder (.spawn (.childs [nodeU, sampleNode] .notified)), .finder (.run 2 .tryLock),
      .finder (.run 2 .apply),
    .finder (.run 2 .unlock)]

theorem discovered_comes : ∃ d : Deployment, run (step 7) (init false []) comesRun = some d ∧
    ∃ children, d.world.server.children[samplePath]? = some children ∧
      (∀ u, u ∈ d.finder.shared.transports ↔ u ∈ children.map zookeeperNode2Url) ∧
      ∀ servers : List Bytes, (∀ u ∈ servers, Url u) →
      (∀ node, node ∈ children ↔ node ∈ servers.map url2ZookeeperNode) →
        ∀ u, u ∈ d.finder.shared.transports ↔ u ∈ servers := by
  obtain ⟨d, hd, hend⟩ := run_exists (step 7) (init false []) comesRun
    (fun d => decide ((d.world.client.watchersAt samplePath)[1]? = some 7 ∧
      told samplePath 7 d.world.client.log = some [nodeU, sampleNode] ∧ d.world.client.zk = some 0 ∧
      (0, samplePath) ∉ d.world.server.flying ∧ d.world.client.eventChan = [] ∧
      (notifications d.finder).length = (calls 7 d.world.client.log).length ∧
      (notifications d.finder).getLast? = some ([nodeU, sampleNode], .returned .applied)))
        (by decide +kernel)
  obtain ⟨hwatched, htold, hzk, hflying, hchan, hhanded, hlast⟩ := of_decide_eq_true hend
  refine ⟨d, hd, discovered samplePath 1 7 false [] comesRun d ?_ hd
    ⟨hwatched, ⟨_, htold⟩, ⟨0, hzk, hflying⟩, by simp [hchan], hhanded, ⟨_, hlast⟩⟩⟩
  simp only [worldActs, comesRun, List.filterMap_cons, List.filterMap_nil,
    Respected, List.forall_mem_cons,
    Action.watch.injEq]
  refine ⟨⟨?_, by decide⟩, by simp⟩
  rintro p k answers ⟨rfl, -, rfl, -⟩
  exact ⟨rfl, rfl⟩

end Runs

end Ucorf.Discovery
