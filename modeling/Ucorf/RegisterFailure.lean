import Ucorf.ZookeeperCreates
import Ucorf.ZookeeperUnregister

/-!
# Failed registrations

`DelayCreateEphemeralNode` puts the path into `ephemeral_nodes_` before it creates
anything and leaves it there when a create fails. The registration is reported as failed
and the destination is not recorded, but the next session creates the node.
-/
namespace Ucorf.RegisterFailure

open Ucorf.Message
open Ucorf.Scripts
open Ucorf.Threads
open Ucorf.Zookeeper
open Ucorf.ZookeeperUrl
open Ucorf.ZookeeperCreates
open Ucorf.ZookeeperRegister
open Ucorf.ZookeeperUnregister

/-- The call has left nothing behind: neither the path, nor a later create of the node that
nobody has asked for. -/
structure LeavesNothing (path : Bytes) (s s' : ZookeeperClient) : Prop where
  nodes : s'.ephemeralNodes = s.ephemeralNodes
  silent : ∀ acts t, run step s' acts = some t → (∀ act ∈ acts, registers path act = false) →
    ∀ zh ret, Op.create zh path zooEphemeral ret ∉ t.log.drop s'.log.length

section Failures

variable {s s' : ZookeeperClient} {path : Bytes} {answers : List Answer} {ok : Bool}

theorem inserted (h : exec (delayCreateEphemeralNode path) s answers = some (ok, s')) :
    path ∈ s'.ephemeralNodes := by
  rw [(delayed_of_exec h).nodes, Std.ExtTreeSet.mem_insert]
  left
  simp

/-- Whatever a call returns, its path is there from then on. -/
theorem stays (h : exec (delayCreateEphemeralNode path) s answers = some (ok, s'))
    {acts : List Action}
    {t : ZookeeperClient} (hrun : run step s' acts = some t) : path ∈ t.ephemeralNodes :=
  nodesKept_run hrun path (inserted h)

theorem not_leavesNothing (h : exec (delayCreateEphemeralNode path) s answers = some (ok, s'))
    (hnew : path ∉ s.ephemeralNodes) : ¬ LeavesNothing path s s' := by
  intro hleaves
  have hmem := inserted h
  rw [hleaves.nodes] at hmem
  exact hnew hmem

/-- A failed `Register` records no destination, and its client has the path all the same. -/
theorem register_false {r r' : Registered} {url srvInfo : Bytes} {mgr mgr' : ZookeeperClientMgr}
    (haddr : (parseZookeeperUrl url).1 ≠ []) (hnode : url2ZookeeperNode srvInfo ≠ [])
    (h : exec (register r url srvInfo) mgr answers = some ((false, r'), mgr')) :
    r' = r ∧ (parseZookeeperUrl url).2 ++ [slash] ++ url2ZookeeperNode srvInfo ∈
      (getZookeeperClient mgr' (parseZookeeperUrl url).1).ephemeralNodes := by
  have hscript := exec_eq_some.mp h
  simp only [register, if_neg haddr, if_neg hnode] at hscript
  obtain ⟨ok, ⟨m, rest⟩, hclient, hpure⟩ := bind_eq_some.mp hscript
  obtain ⟨hresult, hstate⟩ := pure_eq_some.mp hpure
  cases hstate
  cases ok with
  | true => cases hresult
  | false =>
    cases hresult
    refine ⟨rfl, ?_⟩
    unfold onClient at hclient
    split at hclient
    · cases hclient
    · rename_i b s rest' hrun
      cases hclient
      obtain ⟨used, -, hdelayed⟩ := delayed_of_eq_some hrun
      have hmem := hdelayed.nodes
      have hget : ∀ host, getZookeeperClient (mgr.insert host s) host = s := by
        intro host
        simp [getZookeeperClient]
      rw [hget, hmem, Std.ExtTreeSet.mem_insert]
      left
      simp

/-- A failed call leaves nothing behind exactly when it cannot fail: no create is answered
with an error. Else the path is in every later state. -/
theorem failure_clean_iff (h : exec (delayCreateEphemeralNode path) s answers = some (ok, s'))
    (hnew : path ∉ s.ephemeralNodes) :
    ((ok = false → LeavesNothing path s s') ↔ ∀ a ∈ answers, a.ret = zOk ∨ a.ret = zNodeExists) ∧
    ∀ acts t, run step s' acts = some t → path ∈ t.ephemeralNodes := by
  have hok := (delayed_of_exec h).ok_iff
  refine ⟨⟨fun hclean => ?_, fun hall hfail => ?_⟩, fun acts t hrun => stays h hrun⟩
  · apply hok.mp
    by_contra hfail
    exact not_leavesNothing h hnew (hclean (Bool.eq_false_iff.mpr hfail))
  · rw [hok.mpr hall] at hfail
    cases hfail

end Failures

section Runs

def refused : Answer := ⟨-4, []⟩

/-- A session is up. -/
def connectedRun : List Action :=
  [.connect true, .enqueue ⟨0, zooSessionEvent, zooConnectedState, []⟩, .onWatch []]

/-- The parent is there, and the create of `/a/b` loses its connection. -/
theorem failure_clean_refused : ∃ s s', run step .init connectedRun = some s ∧
    exec (delayCreateEphemeralNode samplePath) s [created, refused] = some (false, s') ∧
    ¬ LeavesNothing samplePath s s' := by
  obtain ⟨s, hs, hrest⟩ := run_exists step .init connectedRun
    (fun s => decide (samplePath ∉ s.ephemeralNodes) &&
      (exec (delayCreateEphemeralNode samplePath) s [created, refused]).any
        fun r : Bool × ZookeeperClient => !r.1)
    (by decide +kernel)
  rw [Bool.and_eq_true, decide_eq_true_eq] at hrest
  obtain ⟨⟨ok, s'⟩, h, hok⟩ := (Option.any_eq_true _ _).mp hrest.2
  obtain rfl : ok = false := by simpa using hok
  have hnot : ¬ ∀ a ∈ [created, refused], a.ret = zOk ∨ a.ret = zNodeExists := by decide
  refine ⟨s, s', hs, h, fun hleaves => hnot ?_⟩
  exact (failure_clean_iff h hrest.1).1.mp fun _ => hleaves

/-- The next session creates the node of the failed call. -/
theorem failed_node_created :
    (∃ s s' t, run step .init connectedRun = some s ∧
      exec (delayCreateEphemeralNode samplePath) s [created, refused] = some (false, s') ∧
      run step s' nextSession = some t ∧
    Op.create (some 1) samplePath zooEphemeral zOk ∈ t.log.drop s'.log.length) ∧
    ¬ ∀ (acts : List Action) (s s' : ZookeeperClient) (path : Bytes)
      (answers : List Answer) (ok : Bool),
      run step .init acts = some s → path ∉ s.ephemeralNodes →
      exec (delayCreateEphemeralNode path) s answers = some (ok, s') → ok = false →
    LeavesNothing path s s' := by
  obtain ⟨s, hs, hrest⟩ := run_exists step .init connectedRun
    (fun s => decide (samplePath ∉ s.ephemeralNodes) &&
      (exec (delayCreateEphemeralNode samplePath) s [created, refused]).any
        fun r : Bool × ZookeeperClient => !r.1 && (run step r.2 nextSession).any
          fun t : ZookeeperClient => decide
            (Op.create (some 1) samplePath zooEphemeral zOk ∈ t.log.drop r.2.log.length))
    (by decide +kernel)
  rw [Bool.and_eq_true, decide_eq_true_eq] at hrest
  obtain ⟨⟨ok, s'⟩, h, hafter⟩ := (Option.any_eq_true _ _).mp hrest.2
  rw [Bool.and_eq_true] at hafter
  obtain rfl : ok = false := by simpa using hafter.1
  obtain ⟨t, ht, hmem⟩ := run_exists _ _ _ _ hafter.2
  constructor
  · exact ⟨s, s', t, hs, h, ht, of_decide_eq_true hmem⟩
  · intro hall
    exact not_leavesNothing h hrest.1 (hall connectedRun s s' samplePath _ false hs hrest.1 h rfl)

end Runs

end Ucorf.RegisterFailure
