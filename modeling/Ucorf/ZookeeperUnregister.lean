import Ucorf.ZookeeperFrames
import Ucorf.ZookeeperRegister

/-!
# Deleted nodes

`DeleteNode` compares the answer of `zoo_delete` with `ret != ZOK || ret != ZNONODE`,
which every answer passes. So it reports an error for each node that it has deleted and
never takes a path out of `ephemeral_nodes_`, and nothing else does: a path that was
registered once is created again by every later session.
-/
namespace Ucorf.ZookeeperUnregister

open Ucorf.Message
open Ucorf.Scripts
open Ucorf.Threads
open Ucorf.Zookeeper
open Ucorf.ZookeeperFrames
open Ucorf.ZookeeperRegister

/-- No path leaves `ephemeral_nodes_`. -/
def NodesKept (s s' : ZookeeperClient) : Prop := ∀ path ∈ s.ephemeralNodes, path ∈ s'.ephemeralNodes

theorem nodesKept_core (s s' : ZookeeperClient) (h : s'.ephemeralNodes = s.ephemeralNodes) :
    NodesKept s s' := by
  intro path hpath
  rw [h]
  exact hpath

theorem nodesKept_frame (cb : Option Nat) : FetchFrame NodesKept cb where
  refl s := nodesKept_core s s rfl
  trans _ _ _ h h' path hpath := h' path (h path hpath)
  create s _ _ _ := nodesKept_core s _ rfl
  addRetry s _ := nodesKept_core s _ rfl
  addNode s path p hp := by
    simp only [ZookeeperClient.addNode, Std.ExtTreeSet.mem_insert]
    exact .inr hp
  asked s _ _ _ := nodesKept_core s _ rfl
  notified s _ _ _ := by cases cb <;> exact nodesKept_core s _ rfl

theorem nodesKept_step (s : ZookeeperClient) (act : Action) (s' : ZookeeperClient)
    (h : step s act = some s') :
    NodesKept s s' := by
  refine (nodesKept_frame none).step_respects (fun s s' _ hnodes _ => nodesKept_core s s' hnodes)
    (fun s _ _ => nodesKept_core s _ rfl) ?_ ?_ h
  · intro path f key answers _ ok hw
    exact ((nodesKept_frame (some f)).respects_watch
      (fun s _ _ => nodesKept_core s _ rfl) path key).exec hw
  · intro path key _ u hu
    exact ((nodesKept_frame none).respects_unwatch
      (fun s _ _ => nodesKept_core s _ rfl) path key).exec hu

theorem nodesKept_run {s t : ZookeeperClient} {acts : List Action} (h : run step s acts = some t) :
    NodesKept s t := by
  refine run_invariant (I := fun m => NodesKept s m) ?_ (fun m act m' hm hstep => ?_) h
  · exact nodesKept_core s s rfl
  · exact (nodesKept_frame none).trans s m m' hm (nodesKept_step m act m' hstep)

theorem nodesKept_deleteNode (path : Bytes) : Respects NodesKept (deleteNode path) :=
  (nodesKept_frame none).respects_deleteNode (fun s _ _ => nodesKept_core s _ rfl) path

theorem nodesKept_deleteAll (host : Bytes) (dests : List (Bytes × Bytes)) :
    Respects (fun m m' => NodesKept (getZookeeperClient m host) (getZookeeperClient m' host))
      (deleteAll dests) := by
  have hrefl (m : ZookeeperClientMgr) : NodesKept (getZookeeperClient m host)
      (getZookeeperClient m host) :=
    nodesKept_core _ _ rfl
  induction dests with
  | nil => exact respects_pure hrefl _
  | cons dest rest ih =>
    have hdelete :=
      respects_onClient (fun s => nodesKept_core s s rfl) (nodesKept_deleteNode dest.2) dest.1 host
    exact hdelete.bind (fun _ _ _ h h' path hpath => h' path (h path hpath)) fun _ => ih

/-- `DeleteNode` always reports an error. -/
theorem deleteNode_false {s s' : ZookeeperClient} {path : Bytes} {answers : List Answer} {ok : Bool}
    (h : exec (deleteNode path) s answers = some (ok, s')) : ok = false := by
  obtain ⟨zk, p, -, hrest⟩ := bind_eq_some.mp (exec_eq_some.mp h)
  split at hrest
  · exact (pure_eq_some.mp hrest).1.symm
  · obtain ⟨ret, q, -, hrest⟩ := bind_eq_some.mp hrest
    rw [if_pos (delete_fails ret)] at hrest
    exact (pure_eq_some.mp hrest).1.symm

/-- A user of the class registers the path. -/
def registers (path : Bytes) : Action → Bool
  | .delayCreateEphemeralNode p _ => p = path
  | .createNode p flags _ _ => p = path && flags = .ephemeral
  | _ => false

/-- What is asked of a `DeleteNode` that returned `ok` and left `s`. -/
structure StaysDeleted (path : Bytes) (ok : Bool) (s : ZookeeperClient) : Prop where
  returned : ok = true
  removed : path ∉ s.ephemeralNodes
  silent : ∀ acts t, run step s acts = some t → (∀ act ∈ acts, registers path act = false) →
    ∀ zh ret, Op.create zh path zooEphemeral ret ∉ t.log.drop s.log.length

/-- No `DeleteNode` that deleted its node or found none does what is asked, a registered
path is there in every later state, and `Unregister` leaves the paths in their sets. -/
theorem never_staysDeleted (s s' : ZookeeperClient) (path : Bytes) (a : Answer) (ok : Bool)
    (h : exec (deleteNode path) s [a] = some (ok, s')) (_ : a.ret = zOk ∨ a.ret = zNoNode) :
    ¬ StaysDeleted path ok s' ∧
    (path ∈ s.ephemeralNodes → ∀ acts t, run step s' acts = some t → path ∈ t.ephemeralNodes) ∧
    ∀ (r : Registered) (mgr mgr' : ZookeeperClientMgr) (answers : List Answer) (u : Unit),
      exec (unregister r) mgr answers = some (u, mgr') → ∀ dest ∈ r.destinations,
      dest.2 ∈ (getZookeeperClient mgr dest.1).ephemeralNodes →
      dest.2 ∈ (getZookeeperClient mgr' dest.1).ephemeralNodes := by
  refine ⟨?_, ?_, ?_⟩
  · intro hstays
    rw [deleteNode_false h] at hstays
    cases hstays.returned
  · intro hpath acts t ht
    exact nodesKept_run ht path ((nodesKept_deleteNode path).exec h path hpath)
  · intro r mgr mgr' answers u hr dest _ hpath
    exact (nodesKept_deleteAll dest.1 r.destinations).exec hr dest.2 hpath

section Runs

/-- The path `/a/b`. -/
def samplePath : Bytes := [47, 97, 47, 98]

def created : Answer := ⟨zOk, []⟩

/-- The session is up and `/a/b` is registered. -/
def registeredRun : List Action :=
  [.connect true, .enqueue ⟨0, zooSessionEvent, zooConnectedState, []⟩, .onWatch [],
    .delayCreateEphemeralNode samplePath [created, created]]

/-- The session is lost and a new one comes up. -/
def nextSession : List Action :=
  [.enqueue ⟨0, zooSessionEvent, 1, []⟩, .onWatch [], .connect true,
    .enqueue ⟨1, zooSessionEvent, zooConnectedState, []⟩, .onWatch [created, created]]

theorem never_staysDeleted_sample : ∃ s s' ok, run step .init registeredRun = some s ∧
    exec (deleteNode samplePath) s [created] = some (ok, s') ∧ ¬ StaysDeleted samplePath ok s' := by
  obtain ⟨s, hs, hdelete⟩ := run_exists step .init registeredRun
    (fun s => (exec (deleteNode samplePath) s [created]).isSome) (by decide +kernel)
  obtain ⟨⟨ok, s'⟩, h⟩ := Option.isSome_iff_exists.mp hdelete
  exact ⟨s, s', ok, hs, h, (never_staysDeleted s s' samplePath created ok h (.inl rfl)).1⟩

/-- The deleted node is created again by the next session. -/
theorem deleted_node_reappears :
    ¬ ∀ (acts : List Action) (s s' : ZookeeperClient) (path : Bytes) (a : Answer) (ok : Bool),
      run step .init acts = some s → exec (deleteNode path) s [a] = some (ok, s') →
      a.ret = zOk ∨ a.ret = zNoNode → StaysDeleted path ok s' := by
  intro hall
  obtain ⟨s, hs, hrest⟩ := run_exists step .init registeredRun
    (fun s => (exec (deleteNode samplePath) s [created]).any fun r : Bool × ZookeeperClient =>
      (run step r.2 nextSession).any fun t : ZookeeperClient =>
      decide (Op.create (some 1) samplePath zooEphemeral zOk ∈ t.log.drop r.2.log.length))
        (by decide +kernel)
  obtain ⟨⟨ok, s'⟩, h, hrun⟩ := (Option.any_eq_true _ _).mp hrest
  obtain ⟨t, ht, hmem⟩ := run_exists _ _ _ _ hrun
  have hstays := hall registeredRun s s' samplePath created ok hs h (.inl rfl)
  exact hstays.silent nextSession t ht (by decide) _ _ (of_decide_eq_true hmem)

end Runs

end Ucorf.ZookeeperUnregister
