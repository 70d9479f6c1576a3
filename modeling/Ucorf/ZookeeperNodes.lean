import Ucorf.ZookeeperRetries

/-!
# The nodes of a session

A path in `ephemeral_nodes_` outlives the session that it was created in: the next one
creates it again, and finds it there as long as the server keeps the old session. While a
session is up the client has the node of each path in it, or a retry waits for the path.
-/
namespace Ucorf.ZookeeperNodes

open Ucorf.Message
open Ucorf.Scripts
open Ucorf.Threads
open Ucorf.Zookeeper
open Ucorf.ZookeeperFrames
open Ucorf.ZookeeperCreates
open Ucorf.ZookeeperUnregister
open Ucorf.ZookeeperRetries

/-- No create of the path or of one of its parents was answered with an error. -/
def Granted (path : Bytes) (log : List Op) : Prop :=
  ∀ zh p flags ret, .create zh p flags ret ∈ log → p = path ∨ p ∈ parents path → Accepted ret

/-- The node is there on the session, or a retry waits for it. -/
def Secured (path : Bytes) (zh : Nat) (s : ZookeeperClient) : Prop :=
  holds zh path s.log = true ∨ path ∈ s.retries

/-- While a session is up, a registered path that the server has not refused is secured. -/
def Registered (path : Bytes) (s : ZookeeperClient) : Prop :=
  Granted path s.log → path ∈ s.ephemeralNodes → ∀ zh, s.zk = some zh → Secured path zh s

/-- Nobody takes the node down with `DeleteNode`, or puts it up with `CreateNode`, which takes
a node that is there for its own. -/
def Reserved (path : Bytes) : Action → Prop
  | .createNode p flags _ _ => p = path → flags ≠ .ephemeral
  | .deleteNode p _ => p ≠ path
  | _ => True

/-- The step leaves the node and the retries alone. -/
structure Leaves (path : Bytes) (s s' : ZookeeperClient) : Prop where
  zk : s'.zk = s.zk
  nodes : path ∈ s'.ephemeralNodes → path ∈ s.ephemeralNodes
  retries : path ∈ s.retries → path ∈ s'.retries
  grows : ∃ ops, s'.log = s.log ++ ops ∧ ∀ zh ret, .delete zh path ret ∉ ops

section Leaving

variable {path p : Bytes} {s s' : ZookeeperClient} {zh : Nat} {answers : List Answer} {ok : Bool}

theorem leaves_of_ops (ops : List Op) (hzk : s'.zk = s.zk)
    (hnodes : s'.ephemeralNodes = s.ephemeralNodes)
    (hretries : s'.retries = s.retries) (hlog : s'.log = s.log ++ ops)
    (hops : ∀ zh ret, .delete zh path ret ∉ ops) :
    Leaves path s s' :=
  ⟨hzk, by rw [hnodes]; exact id, by rw [hretries]; exact id, ops, hlog, hops⟩

theorem leaves_core (hzk : s'.zk = s.zk) (hnodes : s'.ephemeralNodes = s.ephemeralNodes)
    (hretries : s'.retries = s.retries) (hlog : s'.log = s.log) :
    Leaves path s s' :=
  leaves_of_ops [] hzk hnodes hretries (by rw [hlog, List.append_nil]) (by simp)

theorem leaves_trans (s t u : ZookeeperClient) (h : Leaves path s t) (h' : Leaves path t u) :
    Leaves path s u := by
  obtain ⟨ops, hlog, hops⟩ := h.grows
  obtain ⟨ops', hlog', hops'⟩ := h'.grows
  refine ⟨h'.zk.trans h.zk, h.nodes ∘ h'.nodes, h'.retries ∘ h.retries, ops ++ ops',
    by rw [hlog', hlog, List.append_assoc], fun zh ret hmem => ?_⟩
  rcases List.mem_append.mp hmem with hmem | hmem
  · exact hops zh ret hmem
  · exact hops' zh ret hmem

theorem leaves_frame (cb : Option Nat) : PlainFetchFrame (Leaves path) cb where
  refl s := leaves_core rfl rfl rfl rfl
  trans := leaves_trans
  create s p flags ret _ := leaves_of_ops [.create s.zk p flags ret] rfl rfl rfl rfl (by simp)
  asked s p a _ := leaves_of_ops [.getChildren s.zk p a] rfl rfl rfl rfl (by simp)
  notified s p a _ := by
    have hasked : Leaves path s (asked s p a) :=
      leaves_of_ops [.getChildren s.zk p a] rfl rfl rfl rfl (by simp)
    refine leaves_trans _ _ _ hasked ?_
    cases cb with
    | some f => exact leaves_of_ops [.notify f a.children] rfl rfl rfl rfl (by simp)
    | none =>
      refine leaves_of_ops
        (((asked s p a).watchersAt p).toList.map fun kv => .notify kv.2 a.children)
        rfl rfl rfl rfl ?_
      simp

theorem leaves_setWatchers (s : ZookeeperClient) (p : Bytes) (m : WatcherMap) :
    Leaves path s (s.setWatchers p m) :=
  leaves_core rfl rfl rfl rfl

/-- A node that the session has stays until the client deletes it. -/
theorem holds_mono {log ops : List Op} (hops : ∀ zh ret, .delete zh path ret ∉ ops)
    (h : holds zh path log = true) :
    holds zh path (log ++ ops) = true := by
  rw [holds_append, h]
  induction ops with
  | nil => rfl
  | cons op ops ih =>
    have hstep : holdsStep zh path true op = true := by
      cases op with
      | delete zh' q ret =>
        have hq : q ≠ path := by
          rintro rfl
          exact hops zh' ret (by simp)
        simp [holdsStep, hq]
      | _ => rfl
    rw [List.foldl_cons, hstep]
    exact ih fun zh ret hmem => hops zh ret (List.mem_cons_of_mem _ hmem)

theorem Leaves.secured (h : Leaves path s s') (hs : Secured path zh s) : Secured path zh s' := by
  obtain ⟨ops, hlog, hops⟩ := h.grows
  refine hs.imp (fun hheld => ?_) h.retries
  rw [hlog]
  exact holds_mono hops hheld

theorem granted_of_append {log ops : List Op} (h : Granted path (log ++ ops)) : Granted path log :=
  fun zh p flags ret hmem => h zh p flags ret (List.mem_append_left _ hmem)

theorem Leaves.granted (h : Leaves path s s') (hg : Granted path s'.log) : Granted path s.log := by
  obtain ⟨ops, hlog, -⟩ := h.grows
  rw [hlog] at hg
  exact granted_of_append hg

theorem Leaves.registered (h : Leaves path s s') (hs : Registered path s) : Registered path s' := by
  intro hg hmem zh hzk
  rw [h.zk] at hzk
  exact h.secured (hs (h.granted hg) (h.nodes hmem) zh hzk)

theorem calls_creates {zk : Option Nat} {paths : List Bytes} {ops : List Op}
    (h : Calls zk paths answers ops ok) :
    ∀ op ∈ ops, ∃ q ∈ paths, ∃ ret, op = .create zk q 0 ret := by
  induction h with
  | done => simp
  | refused ha => simp
  | next ha hrest ih =>
    intro op hop
    rcases List.mem_cons.mp hop with rfl | hop
    · exact ⟨_, List.mem_cons_self, _, rfl⟩
    · obtain ⟨q, hq, hcreate⟩ := ih op hop
      exact ⟨q, List.mem_cons_of_mem _ hq, hcreate⟩

theorem calls_no_delete {zk : Option Nat} {paths : List Bytes} {ops : List Op}
    (h : Calls zk paths answers ops ok) : ∀ zh ret, .delete zh path ret ∉ ops := by
  intro zh ret hmem
  obtain ⟨q, -, ret', hop⟩ := calls_creates h _ hmem
  cases hop

/-- The creates of another path. -/
theorem leaves_delayed (h : Delayed p s answers ok s') (hne : p ≠ path) : Leaves path s s' := by
  have hnodes : path ∈ (s.addNode p).ephemeralNodes → path ∈ s.ephemeralNodes := by
    intro hmem
    rw [ZookeeperClient.addNode, Std.ExtTreeSet.mem_insert] at hmem
    exact hmem.elim (fun heq => absurd (Std.LawfulEqCmp.eq_of_compare heq) hne) id
  cases h with
  | offline h => exact ⟨rfl, hnodes, id, [], (List.append_nil _).symm, by simp⟩
  | parent h hcalls => exact ⟨rfl, hnodes, id, _, rfl, calls_no_delete hcalls⟩
  | refused h hcalls ha =>
    exact ⟨rfl, hnodes, id, _, rfl, fun zh ret => by simpa using calls_no_delete hcalls zh ret⟩
  | created h hcalls ha =>
    exact ⟨rfl, hnodes, id, _, rfl, fun zh ret => by simpa using calls_no_delete hcalls zh ret⟩
  | existing h hcalls ha =>
    exact ⟨rfl, hnodes, fun hmem => List.mem_append_left _ hmem, _, rfl,
      fun zh ret => by simpa using calls_no_delete hcalls zh ret⟩

/-- A loop over the parents that nobody refused comes to its end. -/
theorem calls_granted {zk : Option Nat} {paths : List Bytes} {ops : List Op}
    (h : Calls zk paths answers ops ok)
    (hacc : ∀ q ∈ paths, ∀ ret, .create zk q 0 ret ∈ ops → Accepted ret) : ok = true := by
  induction h with
  | done => rfl
  | refused ha => exact absurd (hacc _ List.mem_cons_self _ List.mem_cons_self) ha
  | next ha hrest ih =>
    exact ih fun q hq ret hmem =>
      hacc q (List.mem_cons_of_mem _ hq) ret (List.mem_cons_of_mem _ hmem)

/-- A create of the path that nobody refused makes the node, or a retry waits. -/
theorem delayed_secured (h : Delayed path s answers ok s') (hg : Granted path s'.log)
    (hzk : s.zk = some zh) : Secured path zh s' := by
  have hparents {ops : List Op} {used : List Answer} {done : Bool}
      (hcalls : Calls s.zk (parents path) used ops done)
        (hops : ∀ op ∈ ops, op ∈ s'.log) : done = true :=
    calls_granted hcalls fun q hq ret hmem => hg _ _ _ _ (hops _ hmem) (.inr hq)
  cases h with
  | offline h =>
    rw [h] at hzk
    cases hzk
  | parent h hcalls =>
    have hdone := hparents hcalls fun op hop => List.mem_append_right _ hop
    cases hdone
  | refused h hcalls ha =>
    refine absurd (hg s.zk path zooEphemeral _ ?_ (.inl rfl)) ha
    simp [logged]
  | @created used ops a h hcalls ha =>
    left
    show holds zh path (s.log ++ (ops ++ [.create s.zk path zooEphemeral a.ret])) = true
    rw [← List.append_assoc, holds_append, List.foldl_cons, List.foldl_nil, holdsStep, hzk, ha]
    simp
  | existing h hcalls ha => exact .inr (List.mem_append_right _ List.mem_cons_self)

/-- Creating any path keeps what is secured. -/
theorem delayed_keeps (h : Delayed p s answers ok s') (hg : Granted path s'.log)
    (hzk : s.zk = some zh) (hs : Secured path zh s) : Secured path zh s' := by
  by_cases hp : p = path
  · subst hp
    exact delayed_secured h hg hzk
  · exact (leaves_delayed h hp).secured hs

theorem delayed_zk (h : Delayed p s answers ok s') : s'.zk = s.zk := by
  cases h <;> rfl

theorem delayed_log (h : Delayed p s answers ok s') : ∃ ops, s'.log = s.log ++ ops := by
  cases h with
  | offline h => exact ⟨[], (List.append_nil _).symm⟩
  | _ => exact ⟨_, rfl⟩

end Leaving

section Steps

variable {path : Bytes} {s s' : ZookeeperClient} {answers : List Answer} {u : Unit}

theorem createAll_adds (path : Bytes) {nodes : List Bytes} {p q : ZookeeperClient × List Answer}
    (h : createAll nodes p = some (u, q)) :
    q.1.zk = p.1.zk ∧ (path ∈ q.1.ephemeralNodes → path ∈ p.1.ephemeralNodes ∨ path ∈ nodes) ∧
      ∃ ops, q.1.log = p.1.log ++ ops := by
  induction nodes generalizing p with
  | nil =>
    obtain ⟨-, rfl⟩ := pure_eq_some.mp h
    exact ⟨rfl, .inl, [], (List.append_nil _).symm⟩
  | cons node rest ih =>
    obtain ⟨ok, m, hnode, hrest⟩ := bind_eq_some.mp h
    obtain ⟨used, -, hdelayed⟩ := delayed_of_eq_some hnode
    obtain ⟨ops, hops⟩ := delayed_log hdelayed
    obtain ⟨hzk, hnodes, ops', hops'⟩ := ih hrest
    refine ⟨hzk.trans (delayed_zk hdelayed), fun hmem => ?_,
      ops ++ ops', by rw [hops', hops, List.append_assoc]⟩
    rcases hnodes hmem with hold | hnew
    · rw [hdelayed.nodes, Std.ExtTreeSet.mem_insert, Std.LawfulEqCmp.compare_eq_iff_eq] at hold
      rcases hold with rfl | hold
      · exact .inr List.mem_cons_self
      · exact .inl hold
    · exact .inr (List.mem_cons_of_mem _ hnew)

/-- The loop over the nodes secures each of them. -/
theorem createAll_secured {nodes : List Bytes} {p q : ZookeeperClient × List Answer} {zh : Nat}
    (hg : Granted path q.1.log) (hzk : p.1.zk = some zh) (hp : path ∈ nodes ∨ Secured path zh p.1)
    (h : createAll nodes p = some (u, q)) :
    Secured path zh q.1 := by
  induction nodes generalizing p with
  | nil =>
    obtain ⟨-, rfl⟩ := pure_eq_some.mp h
    exact hp.resolve_left List.not_mem_nil
  | cons node rest ih =>
    obtain ⟨ok, m, hnode, hrest⟩ := bind_eq_some.mp h
    obtain ⟨used, -, hdelayed⟩ := delayed_of_eq_some hnode
    have hm : Granted path m.1.log := by
      obtain ⟨-, -, ops, hops⟩ := createAll_adds path hrest
      rw [hops] at hg
      exact granted_of_append hg
    refine ih (by rw [delayed_zk hdelayed, hzk]) ?_ hrest
    rcases hp with hmem | hs
    · rcases List.mem_cons.mp hmem with rfl | hmem
      · exact .inr (delayed_secured hdelayed hm hzk)
      · exact .inl hmem
    · exact .inr (delayed_keeps hdelayed hm hzk hs)

/-- A session comes up: whatever was secured in the last one, each node is created again. -/
theorem connected_registered {zh : Nat} (h : exec (onConnected zh) s answers = some (u, s')) :
    Registered path s' := by
  obtain ⟨_, m₀, hset, hrest⟩ := bind_eq_some.mp (exec_eq_some.mp h)
  obtain rfl := update_eq_some.mp hset
  obtain ⟨paths, m₁, hview, hrest⟩ := bind_eq_some.mp hrest
  obtain ⟨rfl, rfl⟩ := view_eq_some.mp hview
  obtain ⟨_, m₂, hfetch, hrest⟩ := bind_eq_some.mp hrest
  obtain ⟨nodes, m₃, hview, hrest⟩ := bind_eq_some.mp hrest
  obtain ⟨rfl, rfl⟩ := view_eq_some.mp hview
  have hleaves : Leaves path { s with zk := some zh } m₂.1 :=
    (leaves_frame none).respects_fetchAll _ _ _ _ hfetch
  have hzk : m₂.1.zk = some zh := hleaves.zk
  obtain ⟨hzk', hnodes, -⟩ := createAll_adds path hrest
  intro hg hmem zh' hzh
  obtain rfl : zh = zh' := by
    rw [hzk', hzk] at hzh
    exact Option.some.inj hzh
  refine createAll_secured hg hzk (.inl ?_) hrest
  rw [Std.ExtTreeSet.mem_toList]
  exact (hnodes hmem).elim id Std.ExtTreeSet.mem_toList.mp

theorem onWatch_registered {e : Event} (hs : Registered path s)
    (h : exec (onWatch e) s answers = some (u, s')) : Registered path s' := by
  unfold onWatch at h
  split at h
  · split at h
    · exact connected_registered h
    · cases update_eq_some.mp (exec_eq_some.mp h)
      unfold onLost
      split
      · rintro - - zh ⟨⟩
      · exact Leaves.registered (s := s) (leaves_core rfl rfl rfl rfl) hs
  · split at h
    · obtain ⟨ok, m, hfetch, hpure⟩ := bind_eq_some.mp (exec_eq_some.mp h)
      obtain ⟨-, rfl⟩ := pure_eq_some.mp hpure
      exact ((leaves_frame none).respects_fetchChildren e.path _ _ _ hfetch).registered hs
    · obtain ⟨-, hp⟩ := pure_eq_some.mp (exec_eq_some.mp h)
      cases hp
      exact hs

/-- A retry that is over has made the node or has started the next one. -/
theorem retry_registered {p : Bytes} (hs : Registered path s)
    (h : exec (retry p) { s with retries := s.retries.erase p } answers = some (u, s')) :
    Registered path s' := by
  obtain ⟨wanted, m, hview, hrest⟩ := bind_eq_some.mp (exec_eq_some.mp h)
  obtain ⟨hwanted, rfl⟩ := view_eq_some.mp hview
  have hother (hne : p ≠ path) : Leaves path s { s with retries := s.retries.erase p } :=
    ⟨rfl, id, (List.mem_erase_of_ne (Ne.symm hne)).mpr, [], (List.append_nil _).symm, by simp⟩
  split at hrest
  · obtain ⟨ok, m', hdelay, hpure⟩ := bind_eq_some.mp hrest
    obtain ⟨-, rfl⟩ := pure_eq_some.mp hpure
    obtain ⟨used, -, hdelayed⟩ := delayed_of_eq_some hdelay
    by_cases hp : p = path
    · subst hp
      intro hg _ zh hzk
      rw [delayed_zk hdelayed] at hzk
      exact delayed_secured hdelayed hg hzk
    · exact (leaves_trans _ _ _ (hother hp) (leaves_delayed hdelayed hp)).registered hs
  · rename_i hnot
    obtain ⟨-, hp⟩ := pure_eq_some.mp hrest
    cases hp
    by_cases hp : p = path
    · -- nobody wants the node any more
      subst hp
      intro _ hmem
      rw [← hwanted] at hnot
      exact absurd (Std.ExtTreeSet.contains_iff_mem.mpr hmem) hnot
    · exact (hother hp).registered hs

theorem createNode_registered {p : Bytes} {flags : CreateNodeFlags} {recursive ok : Bool}
    (hs : Registered path s) (hp : p = path → flags ≠ .ephemeral)
    (h : exec (createNode p flags recursive) s answers = some (ok, s')) : Registered path s' := by
  by_cases hflags : flags = .ephemeral
  · have hne : p ≠ path := fun heq => hp heq hflags
    obtain ⟨used, -, hcreates⟩ := createNode_eq_some.mp (exec_eq_some.mp h)
    refine Leaves.registered ?_ hs
    cases hcreates with
    | offline h => exact leaves_core rfl rfl rfl rfl
    | parent h hcalls => exact leaves_of_ops _ rfl rfl rfl rfl (calls_no_delete hcalls)
    | refused h hcalls ha =>
      exact leaves_of_ops _ rfl rfl rfl rfl fun zh ret => by
        simpa using calls_no_delete hcalls zh ret
    | @made used ops a h hcalls ha =>
      subst hflags
      refine ⟨rfl, fun hmem => ?_, id, ops ++ [.create s.zk p (createFlags .ephemeral) a.ret], rfl,
        fun zh ret => by simpa using calls_no_delete hcalls zh ret⟩
      have hinsert : path ∈ s.ephemeralNodes.insert p := hmem
      rw [Std.ExtTreeSet.mem_insert] at hinsert
      exact hinsert.elim (fun heq => absurd (Std.LawfulEqCmp.eq_of_compare heq) hne) id
  · exact (((leaves_frame none).respects_createNode p hflags recursive).exec h).registered hs

theorem leaves_deleteNode {p : Bytes} (hne : p ≠ path) : Respects (Leaves path) (deleteNode p) := by
  have hf : PlainFetchFrame (Leaves path) none := leaves_frame none
  refine (respects_view hf.refl _).bind hf.trans fun zk =>
    respects_ite (fun _ => respects_pure hf.refl _) fun _ => ?_
  refine Respects.bind hf.trans ?_ fun ret =>
    respects_ite (fun _ => respects_pure hf.refl _) fun hpass => ?_
  · refine (respects_ask hf.refl).bind hf.trans fun a =>
      (respects_update fun s => ?_).bind hf.trans fun _ => respects_pure hf.refl _
    exact leaves_of_ops [.delete s.zk p a.ret] rfl rfl rfl rfl (by simp [Ne.symm hne])
  · exact absurd (delete_fails ret) hpass

theorem registered_step {act : Action} (hact : Reserved path act) (hs : Registered path s)
    (h : step s act = some s') : Registered path s' := by
  have hplain {α : Type} {x : Zk α} {a : α} {answers : List Answer} (hx : Respects (Leaves path) x)
      (he : exec x s answers = some (a, s')) : Registered path s' := (hx.exec he).registered hs
  cases step_cases h with
  | connect ok hleft =>
    unfold connect
    split <;> exact Leaves.registered (s := s) (leaves_core rfl rfl rfl rfl) hs
  | enqueue hopen hroom => exact Leaves.registered (s := s) (leaves_core rfl rfl rfl rfl) hs
  | @onWatch e rest _ _ _ hchan ht =>
    refine onWatch_registered ?_ ht
    exact Leaves.registered (s := s) (leaves_core rfl rfl rfl rfl) hs
  | retry hmem ht => exact retry_registered hs ht
  | @watch p cb key _ _ _ ht =>
      exact hplain ((leaves_frame (some cb)).respects_watch leaves_setWatchers p key) ht
  | @unwatch p key _ _ ht =>
      exact hplain ((leaves_frame none).respects_unwatch leaves_setWatchers p key) ht
  | createNode ht => exact createNode_registered hs hact ht
  | @delayCreateEphemeralNode p _ _ _ ht =>
    have hdelayed := delayed_of_exec ht
    by_cases hp : p = path
    · subst hp
      intro hg _ zh hzk
      rw [delayed_zk hdelayed] at hzk
      exact delayed_secured hdelayed hg hzk
    · exact (leaves_delayed hdelayed hp).registered hs
  | @deleteNode p _ _ _ ht =>
    exact hplain (leaves_deleteNode hact) ht

theorem registered_run {acts : List Action} (hacts : ∀ act ∈ acts, Reserved path act)
    (h : run step .init acts = some s) : Registered path s := by
  have hguard : Guarded step (fun _ act => Reserved path act) .init acts := by
    intro pre act post m hacts' _
    exact hacts act (by simp [hacts'])
  refine guarded_invariant (I := Registered path) ?_
    (fun m act m' hm hact hs => registered_step hact hm hs) hguard h
  rintro - - zh ⟨⟩

/-- While a session is up, the client has the node of each path that is registered, or a retry
waits for it, as long as the server refuses neither the path nor its parents. -/
theorem node_or_retry (path : Bytes) (acts : List Action) (s : ZookeeperClient) (zh : Nat)
    (hacts : ∀ act ∈ acts, Reserved path act) (h : run step .init acts = some s)
    (hgranted : Granted path s.log) (hmem : path ∈ s.ephemeralNodes) (hzk : s.zk = some zh) :
    holds zh path s.log = true ∨ path ∈ s.retries :=
  registered_run hacts h hgranted hmem zh hzk

/-- The second session finds the node of the first one, and finds it again after the retry. -/
def againRun : List Action :=
  [.delayCreateEphemeralNode samplePath [], .connect true,
    .enqueue ⟨0, zooSessionEvent, zooConnectedState, []⟩, .onWatch [created, created],
      .enqueue ⟨0, zooSessionEvent, 1, []⟩, .onWatch [], .connect true,
    .enqueue ⟨1, zooSessionEvent, zooConnectedState, []⟩, .onWatch [existing, existing],
    .retry samplePath [existing, existing]]

theorem node_or_retry_again : ∃ s, run step .init againRun = some s ∧
    (holds 1 samplePath s.log = true ∨ samplePath ∈ s.retries) := by
  obtain ⟨s, hs, hend⟩ := run_exists step .init againRun
    (fun s => decide (samplePath ∈ s.ephemeralNodes) && decide
      (s.zk = some 1) && s.log.all fun op =>
      match op with
      | .create _ _ _ ret => decide (Accepted ret)
      | _ => true) (by decide +kernel)
  simp only [Bool.and_eq_true, decide_eq_true_eq] at hend
  obtain ⟨⟨hmem, hzk⟩, hall⟩ := hend
  refine ⟨s, hs, node_or_retry samplePath againRun s 1 ?_ hs
    (fun zh p flags ret hop _ => ?_) hmem hzk⟩
  · simp [againRun, Reserved]
  · exact of_decide_eq_true (List.all_eq_true.mp hall _ hop)

end Steps

end Ucorf.ZookeeperNodes
