import Ucorf.Zookeeper

/-!
# What the methods of the zookeeper client respect

A relation between states that holds across each elementary update holds across every
method that is built of them, whatever the server answers.
-/
namespace Ucorf.ZookeeperFrames

open Ucorf.Message
open Ucorf.Scripts
open Ucorf.Zookeeper

/-- The call of `zoo_get_children` with this answer. -/
def asked (s : ZookeeperClient) (path : Bytes) (a : Answer) : ZookeeperClient :=
  s.addOp (.getChildren s.zk path a)

/-- The state after the callbacks of a children list. -/
def notified (s : ZookeeperClient) (path : Bytes) (cb : Option Nat) (children : List Bytes) :
    ZookeeperClient :=
  match cb with
  | some f => s.addOp (.notify f children)
  | none => { s.setWatchers path (s.watchersAt path) with
      log := s.log ++ (s.watchersAt path).toList.map fun kv => .notify kv.2 children }

/-- A fetch takes the next answer and is recorded. -/
theorem zooGetChildren_eq_some {path : Bytes} {a : Answer} {p q : ZookeeperClient × List Answer}
    (h : zooGetChildren path p = some (a, q)) : p.2 = a :: q.2 ∧ q.1 = asked p.1 path a := by
  obtain ⟨b, m, hask, hrest⟩ := bind_eq_some.mp h
  obtain ⟨_, m', hop, hpure⟩ := bind_eq_some.mp hrest
  obtain ⟨hstate, htape⟩ := ask_eq_some.mp hask
  obtain ⟨rfl, rfl⟩ := pure_eq_some.mp hpure
  have hm := update_eq_some.mp hop
  subst hm
  exact ⟨htape, by rw [asked, hstate]⟩

/-- The callbacks take no answer. -/
theorem notifyWatchers_eq_some {path : Bytes} {cb : Option Nat} {children : List Bytes} {u : Unit}
    {p q : ZookeeperClient × List Answer} (h : notifyWatchers path cb children p = some (u, q)) :
    q = (notified p.1 path cb children, p.2) := by
  rw [update_eq_some.mp h]
  cases cb <;> rfl

section Rounds

theorem shrinks_zooCreate (path : Bytes) (flags : Nat) : Shrinks (zooCreate path flags) :=
  shrinks_ask.bind fun _ => (shrinks_update _).bind fun _ => shrinks_pure _

theorem shrinks_createParents (paths : List Bytes) : Shrinks (createParents paths) := by
  induction paths with
  | nil => exact shrinks_pure _
  | cons parent rest ih =>
    exact (shrinks_zooCreate parent 0).bind fun ret => shrinks_ite (shrinks_pure _) ih

/-- `CreateNode` stops somewhere in the answers. -/
theorem shrinks_createNode (path : Bytes) (flags : CreateNodeFlags) (recursive : Bool) :
    Shrinks (createNode path flags recursive) := by
  have hleaf : Shrinks (createLeaf path flags) :=
    (shrinks_zooCreate path _).bind fun ret =>
      shrinks_ite (shrinks_pure _) ((shrinks_update _).bind fun _ => shrinks_pure _)
  refine (shrinks_view _).bind fun zk => shrinks_ite (shrinks_pure _) ?_
  refine Shrinks.bind ?_ fun ok => shrinks_ite hleaf (shrinks_pure _)
  exact shrinks_ite (shrinks_createParents _) (shrinks_pure _)

/-- Each round takes an answer, so rounds beyond the number of answers do nothing. -/
theorem watchLoop_rounds (path : Bytes) (cb : Option Nat) {m n : Nat}
    {p : ZookeeperClient × List Answer}
    (hm : p.2.length < m) (hn : p.2.length < n) :
    watchLoop path cb m p = watchLoop path cb n p := by
  induction m generalizing n p with
  | zero => omega
  | succ m ih =>
    cases n with
    | zero => omega
    | succ n =>
      refine bind_agree fun a q hget => ?_
      obtain ⟨htape, -⟩ := zooGetChildren_eq_some hget
      rw [htape, List.length_cons] at hm hn
      split
      · rfl
      · split
        · refine bind_agree fun ok q' hcreate => ?_
          have hle := shrinks_createNode path .normal true _ _ _ hcreate
          split
          · apply ih <;> omega
          · rfl
        · rfl

end Rounds

section Steps

variable {s s' : ZookeeperClient}

/-- Everything that a step can do: the watcher thread, the event loop or a method has come to
its end with its answers. -/
inductive Stepped (s : ZookeeperClient) : Action → ZookeeperClient → Prop where
  | connect (ok : Bool) (h : s.connects ≠ 0) : Stepped s (.connect ok) (connect s ok)
  | enqueue {e : Event} (hopen : s.isOpen e.zh) (hroom : s.eventChan.length < 128) :
      Stepped s (.enqueue e) { s with eventChan := s.eventChan ++ [e] }
  | onWatch {e : Event} {rest : List Event} {answers : List Answer}
      {u : Unit} {s' : ZookeeperClient} (hchan : s.eventChan = e :: rest)
      (h : exec (onWatch e) { s with eventChan := rest } answers = some (u, s')) :
      Stepped s (.onWatch answers) s'
  | retry {path : Bytes} {answers : List Answer} {u : Unit} {s' : ZookeeperClient}
      (hmem : path ∈ s.retries)
      (h : exec (retry path) { s with retries := s.retries.erase path } answers = some (u, s')) :
      Stepped s (.retry path answers) s'
  | watch {path : Bytes} {cb key : Nat} {answers : List Answer} {ok : Bool} {s' : ZookeeperClient}
      (h : exec (watch path cb key) s answers = some (ok, s')) :
      Stepped s (.watch path cb key answers) s'
  | unwatch {path : Bytes} {key : Nat} {u : Unit} {s' : ZookeeperClient}
      (h : exec (unwatch path key) s [] = some (u, s')) : Stepped s (.unwatch path key) s'
  | createNode {path : Bytes} {flags : CreateNodeFlags} {recursive : Bool} {answers : List Answer}
      {ok : Bool} {s' : ZookeeperClient}
      (h : exec (createNode path flags recursive) s answers = some (ok, s')) :
      Stepped s (.createNode path flags recursive answers) s'
  | delayCreateEphemeralNode {path : Bytes} {answers : List Answer} {ok : Bool}
      {s' : ZookeeperClient} (h : exec (delayCreateEphemeralNode path) s answers = some (ok, s')) :
      Stepped s (.delayCreateEphemeralNode path answers) s'
  | deleteNode {path : Bytes} {answers : List Answer} {ok : Bool} {s' : ZookeeperClient}
      (h : exec (deleteNode path) s answers = some (ok, s')) :
      Stepped s (.deleteNode path answers) s'

/-- What one step does, by its action. -/
theorem step_cases {act : Action} (h : step s act = some s') : Stepped s act s' := by
  cases act with
  | connect ok =>
    simp only [step] at h
    split at h
    · cases h
    · rename_i hleft
      cases h
      exact .connect ok hleft
  | enqueue e =>
    simp only [step] at h
    split at h
    · rename_i hguard
      cases h
      exact .enqueue hguard.1 hguard.2
    · cases h
  | onWatch answers =>
    simp only [step] at h
    split at h
    · cases h
    · rename_i e rest hchan
      obtain ⟨⟨u, t⟩, ht, rfl⟩ := Option.map_eq_some_iff.mp h
      exact .onWatch hchan ht
  | retry path answers =>
    simp only [step] at h
    split at h
    · rename_i hmem
      obtain ⟨⟨u, t⟩, ht, rfl⟩ := Option.map_eq_some_iff.mp h
      exact .retry hmem ht
    · cases h
  | watch path cb key answers =>
    obtain ⟨⟨ok, t⟩, ht, rfl⟩ := Option.map_eq_some_iff.mp h
    exact .watch ht
  | unwatch path key =>
    have hunwatch : (exec (unwatch path key) s []).map Prod.snd = some s' := h
    obtain ⟨⟨u, t⟩, ht, rfl⟩ := Option.map_eq_some_iff.mp hunwatch
    exact .unwatch ht
  | createNode path flags recursive answers =>
    obtain ⟨⟨ok, t⟩, ht, rfl⟩ := Option.map_eq_some_iff.mp h
    exact .createNode ht
  | delayCreateEphemeralNode path answers =>
    obtain ⟨⟨ok, t⟩, ht, rfl⟩ := Option.map_eq_some_iff.mp h
    exact .delayCreateEphemeralNode ht
  | deleteNode path answers =>
    obtain ⟨⟨ok, t⟩, ht, rfl⟩ := Option.map_eq_some_iff.mp h
    exact .deleteNode ht

end Steps

/-- A relation that the updates of the creating methods respect. -/
structure Frame (R : ZookeeperClient → ZookeeperClient → Prop) : Prop where
  refl : ∀ s, R s s
  trans : ∀ s t u, R s t → R t u → R s u
  create : ∀ s path flags ret, R s (s.addOp (.create s.zk path flags ret))
  addRetry : ∀ s path, R s (s.addRetry path)
  addNode : ∀ s path, R s (s.addNode path)

/-- It respects `__Watch` too, when that is given `cb`. -/
structure FetchFrame (R : ZookeeperClient → ZookeeperClient → Prop) (cb : Option Nat) :
    Prop extends Frame R where
  asked : ∀ s path a, a.ret ≠ zOk → R s (asked s path a)
  notified : ∀ s path a, a.ret = zOk →
    R s (notified (ZookeeperFrames.asked s path a) path cb a.children)

/-- A relation that the updates of the methods that create no ephemeral node respect. -/
structure PlainFrame (R : ZookeeperClient → ZookeeperClient → Prop) : Prop where
  refl : ∀ s, R s s
  trans : ∀ s t u, R s t → R t u → R s u
  create : ∀ s path flags ret, flags ≠ zooEphemeral → R s (s.addOp (.create s.zk path flags ret))

/-- It respects `__Watch` too, which creates no other nodes. -/
structure PlainFetchFrame (R : ZookeeperClient → ZookeeperClient → Prop) (cb : Option Nat) :
    Prop extends PlainFrame R where
  asked : ∀ s path a, a.ret ≠ zOk → R s (asked s path a)
  notified : ∀ s path a, a.ret = zOk →
    R s (notified (ZookeeperFrames.asked s path a) path cb a.children)

/-- The test of `DeleteNode` is true of every answer. -/
theorem delete_fails (ret : Int) : ret ≠ zOk ∨ ret ≠ zNoNode := by
  simp only [zOk, zNoNode]
  omega

namespace PlainFrame

variable {R : ZookeeperClient → ZookeeperClient → Prop}

theorem respects_zooCreate (hf : PlainFrame R) (path : Bytes) {flags : Nat}
    (hflags : flags ≠ zooEphemeral) :
    Respects R (zooCreate path flags) :=
  (respects_ask hf.refl).bind hf.trans fun a =>
    (respects_update fun s => hf.create s path flags a.ret hflags).bind hf.trans fun _ =>
    respects_pure hf.refl _

/-- The parents are plain nodes. -/
theorem respects_createParents (hf : PlainFrame R) (paths : List Bytes) :
    Respects R (createParents paths) := by
  induction paths with
  | nil => exact respects_pure hf.refl _
  | cons parent rest ih =>
    refine (hf.respects_zooCreate parent (by decide)).bind hf.trans fun ret =>
      respects_ite (fun _ => ?_) fun _ => ih
    exact respects_pure hf.refl _

/-- A node that is not ephemeral is a plain one, and so are its parents. -/
theorem respects_createNode (hf : PlainFrame R) (path : Bytes) {flags : CreateNodeFlags}
    (hflags : flags ≠ .ephemeral)
    (recursive : Bool) : Respects R (createNode path flags recursive) := by
  have hcreate : createFlags flags ≠ zooEphemeral := by
    cases flags with
    | normal => decide
    | ephemeral => exact absurd rfl hflags
    | sequence => decide
  refine (respects_view hf.refl _).bind hf.trans fun zk =>
    respects_ite (fun _ => respects_pure hf.refl _) fun _ => ?_
  refine Respects.bind hf.trans ?_ fun ok => respects_ite (fun _ => ?_) fun _ =>
    respects_pure hf.refl _
  · exact respects_ite (fun _ => hf.respects_createParents _) fun _ => respects_pure hf.refl _
  · refine (hf.respects_zooCreate path hcreate).bind hf.trans fun ret =>
      respects_ite (fun _ => ?_) fun _ => ?_
    · exact respects_pure hf.refl _
    · refine (respects_update fun s => ?_).bind hf.trans fun _ => respects_pure hf.refl _
      rw [if_neg hflags]
      exact hf.refl s

theorem respects_unwatch (hf : PlainFrame R) (hw : ∀ s path m, R s (s.setWatchers path m))
    (path : Bytes) (key : Nat) :
    Respects R (unwatch path key) := by
  refine respects_update fun s => ?_
  split
  · exact hf.refl s
  · exact hw s path _

/-- No answer passes the test of `DeleteNode`, so it never gets to `ephemeral_nodes_`. -/
theorem respects_deleteNode (hf : PlainFrame R)
    (hd : ∀ s path ret, R s (s.addOp (.delete s.zk path ret))) (path : Bytes) :
    Respects R (deleteNode path) := by
  refine (respects_view hf.refl _).bind hf.trans fun zk =>
    respects_ite (fun _ => respects_pure hf.refl _) fun _ => ?_
  refine Respects.bind hf.trans ?_ fun ret =>
    respects_ite (fun _ => respects_pure hf.refl _) fun hpass => ?_
  · exact (respects_ask hf.refl).bind hf.trans fun a =>
      (respects_update fun s => hd s path a.ret).bind hf.trans fun _ => respects_pure hf.refl _
  · exact absurd (delete_fails ret) hpass

end PlainFrame

namespace PlainFetchFrame

variable {R : ZookeeperClient → ZookeeperClient → Prop} {cb : Option Nat}

/-- `__Watch` fetches and notifies, as often as it tries. -/
theorem respects_watchLoop (hf : PlainFetchFrame R cb) (path : Bytes) (n : Nat) :
    Respects R (watchLoop path cb n) := by
  induction n with
  | zero =>
    intro p a q h
    cases h
  | succ n ih =>
    -- the answer and what is done with it are taken together
    intro p b q h
    obtain ⟨a, m, hget, hrest⟩ := bind_eq_some.mp h
    obtain ⟨-, hm⟩ := zooGetChildren_eq_some hget
    split at hrest
    · rename_i hok
      obtain ⟨_, m', hnotify, hpure⟩ := bind_eq_some.mp hrest
      obtain ⟨-, rfl⟩ := pure_eq_some.mp hpure
      rw [notifyWatchers_eq_some hnotify, hm]
      exact hf.notified p.1 path a hok
    · rename_i hok
      have hr := hf.asked p.1 path a hok
      rw [← hm] at hr
      refine hf.trans _ _ _ hr ?_
      suffices hloop : Respects R (if a.ret = zNoNode then do
          let ok ← createNode path .normal true
          if ok then watchLoop path cb n else return false
        else return false) from hloop _ _ _ hrest
      refine respects_ite (fun _ => ?_) fun _ => respects_pure hf.refl _
      refine (hf.respects_createNode path (by decide) true).bind hf.trans fun ok => ?_
      exact respects_ite (fun _ => ih) fun _ => respects_pure hf.refl _

theorem respects_fetchChildren (hf : PlainFetchFrame R cb) (path : Bytes) :
    Respects R (fetchChildren path cb) := by
  refine (respects_view hf.refl _).bind hf.trans fun zk =>
    respects_ite (fun _ => respects_pure hf.refl _) fun _ => ?_
  intro p a q h
  exact hf.respects_watchLoop path _ p a q h

/-- After a reconnect the lists of all paths are fetched. -/
theorem respects_fetchAll (hf : PlainFetchFrame R none) (paths : List Bytes) :
    Respects R (fetchAll paths) := by
  induction paths with
  | nil => exact respects_pure hf.refl _
  | cons path rest ih => exact (hf.respects_fetchChildren path).bind hf.trans fun _ => ih

/-- `Watch` registers, and fetches under the callback. -/
theorem respects_watch {f : Nat} (hf : PlainFetchFrame R (some f))
    (hw : ∀ s path m, R s (s.setWatchers path m)) (path : Bytes)
    (key : Nat) : Respects R (watch path f key) := by
  refine (respects_view hf.refl _).bind hf.trans fun m => respects_ite (fun _ => ?_) fun _ => ?_
  · exact (respects_update fun s => hw s path m).bind hf.trans fun _ => respects_pure hf.refl _
  · refine (respects_update fun s => hw s path _).bind hf.trans fun _ => ?_
    refine (respects_view hf.refl _).bind hf.trans fun zk =>
      respects_ite (fun _ => respects_pure hf.refl _) fun _ => ?_
    refine (hf.respects_fetchChildren path).bind hf.trans fun ok =>
      respects_ite (fun _ => ?_) fun _ => respects_pure hf.refl _
    exact (respects_update fun s => hw s path _).bind hf.trans fun _ => respects_pure hf.refl _

end PlainFetchFrame

namespace Frame

variable {R : ZookeeperClient → ZookeeperClient → Prop}

theorem respects_zooCreate (hf : Frame R) (path : Bytes) (flags : Nat) :
    Respects R (zooCreate path flags) :=
  (respects_ask hf.refl).bind hf.trans fun a =>
    (respects_update fun s => hf.create s path flags a.ret).bind hf.trans fun _ =>
    respects_pure hf.refl _

theorem plain (hf : Frame R) : PlainFrame R :=
  ⟨hf.refl, hf.trans, fun s path flags ret _ => hf.create s path flags ret⟩

theorem respects_createParents (hf : Frame R) (paths : List Bytes) :
    Respects R (createParents paths) :=
  hf.plain.respects_createParents paths

/-- The node itself may be an ephemeral one. -/
theorem respects_createLeaf (hf : Frame R) (path : Bytes) (flags : CreateNodeFlags) :
    Respects R (createLeaf path flags) := by
  refine (hf.respects_zooCreate path _).bind hf.trans fun ret =>
    respects_ite (fun _ => ?_) fun _ => ?_
  · exact respects_pure hf.refl _
  · refine (respects_update fun s => ?_).bind hf.trans fun _ => respects_pure hf.refl _
    split
    · exact hf.addNode s path
    · exact hf.refl s

theorem respects_createNode (hf : Frame R) (path : Bytes) (flags : CreateNodeFlags)
    (recursive : Bool) :
    Respects R (createNode path flags recursive) := by
  refine (respects_view hf.refl _).bind hf.trans fun zk =>
    respects_ite (fun _ => respects_pure hf.refl _) fun _ => ?_
  refine Respects.bind hf.trans ?_ fun ok => ?_
  · exact respects_ite (fun _ => hf.respects_createParents _) fun _ => respects_pure hf.refl _
  · exact respects_ite (fun _ => hf.respects_createLeaf path flags) fun _ => respects_pure hf.refl _

theorem respects_delayCreateLeaf (hf : Frame R) (path : Bytes) :
    Respects R (delayCreateLeaf path) := by
  refine (hf.respects_zooCreate path _).bind hf.trans fun ret =>
    respects_ite (fun _ => respects_pure hf.refl _) fun _ =>
    respects_ite (fun _ => ?_) fun _ => respects_pure hf.refl _
  exact (respects_update fun s => hf.addRetry s path).bind hf.trans fun _ => respects_pure hf.refl _

/-- `DelayCreateEphemeralNode` creates, or leaves a retry behind. -/
theorem respects_delayCreateEphemeralNode (hf : Frame R) (path : Bytes) :
    Respects R (delayCreateEphemeralNode path) := by
  refine (respects_update fun s => hf.addNode s path).bind hf.trans fun _ => ?_
  refine (respects_view hf.refl _).bind hf.trans fun zk =>
    respects_ite (fun _ => respects_pure hf.refl _) fun _ => ?_
  refine (hf.respects_createParents _).bind hf.trans fun ok => ?_
  exact respects_ite (fun _ => hf.respects_delayCreateLeaf path) fun _ => respects_pure hf.refl _

theorem respects_retry (hf : Frame R) (path : Bytes) : Respects R (retry path) := by
  refine (respects_view hf.refl _).bind hf.trans fun wanted => respects_ite (fun _ => ?_) fun _ =>
    respects_pure hf.refl _
  exact (hf.respects_delayCreateEphemeralNode path).bind hf.trans fun _ => respects_pure hf.refl _

theorem respects_createAll (hf : Frame R) (paths : List Bytes) : Respects R (createAll paths) := by
  induction paths with
  | nil => exact respects_pure hf.refl _
  | cons path rest ih => exact (hf.respects_delayCreateEphemeralNode path).bind hf.trans fun _ => ih

theorem respects_unwatch (hf : Frame R) (hw : ∀ s path m, R s (s.setWatchers path m))
    (path : Bytes) (key : Nat) :
    Respects R (unwatch path key) :=
  hf.plain.respects_unwatch hw path key

theorem respects_deleteNode (hf : Frame R)
    (hd : ∀ s path ret, R s (s.addOp (.delete s.zk path ret))) (path : Bytes) :
    Respects R (deleteNode path) :=
  hf.plain.respects_deleteNode hd path

end Frame

namespace FetchFrame

variable {R : ZookeeperClient → ZookeeperClient → Prop} {cb : Option Nat}

theorem plain (hf : FetchFrame R cb) : PlainFetchFrame R cb :=
  ⟨hf.toFrame.plain, hf.asked, hf.notified⟩

theorem respects_fetchChildren (hf : FetchFrame R cb) (path : Bytes) :
    Respects R (fetchChildren path cb) :=
  hf.plain.respects_fetchChildren path

theorem respects_watch {f : Nat} (hf : FetchFrame R (some f))
    (hw : ∀ s path m, R s (s.setWatchers path m)) (path : Bytes)
    (key : Nat) : Respects R (watch path f key) :=
  hf.plain.respects_watch hw path key

/-- The handler of a connected session, after it has taken the handle over. -/
theorem respects_onConnected (hf : FetchFrame R none) {s s' : ZookeeperClient} {zh : Nat}
    {answers : List Answer} {u : Unit}
    (h : exec (onConnected zh) s answers = some (u, s')) : R { s with zk := some zh } s' := by
  obtain ⟨_, p, hset, hrest⟩ := bind_eq_some.mp (exec_eq_some.mp h)
  have hp := update_eq_some.mp hset
  subst hp
  have hrespects : Respects R (do
      let paths ← view fun s => s.watchers.keys
      fetchAll paths
      let nodes ← view fun s => s.ephemeralNodes.toList
      createAll nodes) := by
    refine (respects_view hf.refl _).bind hf.trans fun paths =>
      (hf.plain.respects_fetchAll paths).bind hf.trans fun _ => ?_
    exact (respects_view hf.refl _).bind hf.trans fun nodes => hf.respects_createAll nodes
  exact hrespects _ _ _ hrest

/-- `OnWatch` closes and opens, fetches and creates, by the event. -/
theorem respects_onWatch (hf : FetchFrame R none)
    (hcore : ∀ s s', s'.watchers = s.watchers → s'.ephemeralNodes = s.ephemeralNodes →
      s'.log = s.log → R s s')
    {s s' : ZookeeperClient} {e : Event} {answers : List Answer} {u : Unit}
    (h : exec (onWatch e) s answers = some (u, s')) : R s s' := by
  unfold onWatch at h
  split at h
  · split at h
    · have hr := hf.respects_onConnected h
      refine hf.trans _ _ _ ?_ hr
      exact hcore s _ rfl rfl rfl
    · refine Respects.exec (respects_update fun s => ?_) h
      unfold onLost
      split <;> exact hcore s _ rfl rfl rfl
  · split at h
    · have hfetch : Respects R (do
          let _ ← fetchChildren e.path none
          return ()) := (hf.respects_fetchChildren e.path).bind hf.trans fun _ =>
            respects_pure hf.refl _
      exact hfetch.exec h
    · exact (respects_pure hf.refl _).exec h

/-- A relation that looks at neither handles nor queues holds across every step, once it
is known of the two methods that change the watchers. -/
theorem step_respects (hf : FetchFrame R none)
    (hcore : ∀ s s', s'.watchers = s.watchers → s'.ephemeralNodes = s.ephemeralNodes →
      s'.log = s.log → R s s')
    (hd : ∀ s path ret, R s (s.addOp (.delete s.zk path ret))) {s s' : ZookeeperClient}
    {act : Action}
    (hwatch : ∀ path f key answers, act = .watch path f key answers → ∀ ok,
      exec (watch path f key) s answers = some (ok, s') →
      R s s')
    (hunwatch : ∀ path key, act = .unwatch path key → ∀ u,
      exec (unwatch path key) s [] = some (u, s') → R s s')
    (h : step s act = some s') : R s s' := by
  cases step_cases h with
  | connect ok hleft =>
    unfold connect
    split <;> exact hcore s _ rfl rfl rfl
  | enqueue hopen hroom => exact hcore s _ rfl rfl rfl
  | @onWatch e rest _ _ _ hchan ht =>
    have hr := hf.respects_onWatch hcore ht
    refine hf.trans _ _ _ ?_ hr
    exact hcore s _ rfl rfl rfl
  | @retry path _ _ _ hmem ht =>
    have hr := (hf.respects_retry path).exec ht
    refine hf.trans _ _ _ ?_ hr
    exact hcore s _ rfl rfl rfl
  | @watch path f key answers ok _ ht => exact hwatch path f key answers rfl ok ht
  | @unwatch path key u _ ht => exact hunwatch path key rfl u ht
  | @createNode path flags recursive _ _ _ ht =>
    exact (hf.respects_createNode path flags recursive).exec ht
  | @delayCreateEphemeralNode path _ _ _ ht =>
      exact (hf.respects_delayCreateEphemeralNode path).exec ht
  | @deleteNode path _ _ _ ht => exact (hf.respects_deleteNode hd path).exec ht

end FetchFrame

end Ucorf.ZookeeperFrames
