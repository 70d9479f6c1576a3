import Ucorf.ZookeeperCreates
import Ucorf.ZookeeperUnregister

/-!
# Waiting retries

`DelayCreateEphemeralNode` starts a coroutine each time that the node exists already, and
asks neither whether one waits for the path nor whose node it is. A second call for the
path, from the user or from the next session, starts a second coroutine, and a coroutine
that is left over finds the node of its own client and starts another one.
-/
namespace Ucorf.ZookeeperRetries

open Ucorf.Message
open Ucorf.Scripts
open Ucorf.Threads
open Ucorf.Zookeeper
open Ucorf.ZookeeperFrames
open Ucorf.ZookeeperCreates
open Ucorf.ZookeeperUnregister

/-- Whether the session `h` has the node `path` after one more call. -/
def holdsStep (h : Nat) (path : Bytes) (held : Bool) : Op → Bool
  | .create zh p flags ret =>
      held || (zh == some h && p == path && flags == zooEphemeral && ret == zOk)
  | .delete _ p ret => held && !(p == path && ret == zOk)
  | _ => held

def holds (h : Nat) (path : Bytes) (log : List Op) : Bool := log.foldl (holdsStep h path) false

/-- The session that the client uses has created the node. -/
def Owns (s : ZookeeperClient) (path : Bytes) : Prop := s.zk.any fun h => holds h path s.log

instance (s : ZookeeperClient) (path : Bytes) : Decidable (Owns s path) :=
    inferInstanceAs (Decidable (_ = true))

/-- At most one retry waits, and none once the client has the node. -/
structure Single (path : Bytes) (s : ZookeeperClient) : Prop where
  one : s.retries.count path ≤ 1
  done : Owns s path → path ∉ s.retries

/-- Each call is accepted, and the last one is answered with `ret`. -/
def Ends (answers : List Answer) (ret : Int) : Prop :=
  (∀ a ∈ answers, Accepted a.ret) ∧ answers.getLast?.map Answer.ret = some ret

instance (answers : List Answer) (ret : Int) : Decidable (Ends answers ret) :=
    inferInstanceAs (Decidable (_ ∧ _))

/-- What a call of `DelayCreateEphemeralNode` needs: no retry waits when it creates the node, and
when it finds one, that is not the client's own either. -/
def Ready (path : Bytes) (s : ZookeeperClient) (answers : List Answer) : Prop :=
  (Ends answers zOk → path ∉ s.retries) ∧
  (Ends answers zNodeExists → path ∉ s.retries ∧ ¬ Owns s path)

instance (path : Bytes) (s : ZookeeperClient) (answers : List Answer) :
    Decidable (Ready path s answers) :=
  inferInstanceAs (Decidable ((_ → _) ∧ (_ → _)))

/-- What each action needs. A session that comes up finds no retry, and none of the nodes that
it creates again is its own. -/
def Careful (s : ZookeeperClient) : Action → Prop
  | .onWatch _ => ∀ e ∈ s.eventChan.head?, e.type = zooSessionEvent → e.state = zooConnectedState →
      s.retries = [] ∧ ∀ path ∈ s.ephemeralNodes.toList, holds e.zh path s.log = false
  | .createNode path .ephemeral _ answers => Ends answers zOk → path ∉ s.retries
  | .delayCreateEphemeralNode path answers => Ready path s answers
  | _ => True

instance (s : ZookeeperClient) : (act : Action) → Decidable (Careful s act)
  | .onWatch _ => inferInstanceAs (Decidable (∀ e ∈ s.eventChan.head?, e.type = zooSessionEvent →
      e.state = zooConnectedState → s.retries = [] ∧ ∀ path ∈ s.ephemeralNodes.toList,
        holds e.zh path s.log = false))
  | .createNode path .ephemeral _ answers =>
      inferInstanceAs (Decidable (Ends answers zOk → path ∉ s.retries))
  | .createNode _ .normal _ _ => inferInstanceAs (Decidable True)
  | .createNode _ .sequence _ _ => inferInstanceAs (Decidable True)
  | .delayCreateEphemeralNode path answers => inferInstanceAs (Decidable (Ready path s answers))
  | .connect _ => inferInstanceAs (Decidable True)
  | .enqueue _ => inferInstanceAs (Decidable True)
  | .retry _ _ => inferInstanceAs (Decidable True)
  | .watch _ _ _ _ => inferInstanceAs (Decidable True)
  | .unwatch _ _ => inferInstanceAs (Decidable True)
  | .deleteNode _ _ => inferInstanceAs (Decidable True)

/-- No new retry of the path and no new node. -/
structure Quiet (path : Bytes) (s s' : ZookeeperClient) : Prop where
  zk : s'.zk = s.zk
  retries : s'.retries.count path ≤ s.retries.count path
  holds : ∀ h, holds h path s'.log = true → holds h path s.log = true

/-- The call does not create the ephemeral node `path`. -/
def Spares (path : Bytes) (op : Op) : Prop := ∀ zh, op ≠ .create zh path zooEphemeral zOk

section Quiet

variable {path : Bytes} {s s' : ZookeeperClient}

theorem holds_append (h : Nat) (path : Bytes) (log ops : List Op) :
    holds h path (log ++ ops) = ops.foldl (holdsStep h path) (holds h path log) := List.foldl_append

theorem holdsStep_spares {h : Nat} {held : Bool} {op : Op} (hop : Spares path op)
    (hheld : holdsStep h path held op = true) : held = true := by
  cases op with
  | create zh p flags ret =>
    rw [holdsStep, Bool.or_eq_true] at hheld
    rcases hheld with hheld | hnew
    · exact hheld
    · simp only [Bool.and_eq_true, beq_iff_eq] at hnew
      obtain ⟨⟨⟨-, rfl⟩, rfl⟩, rfl⟩ := hnew
      exact absurd rfl (hop zh)
  | delete zh p ret =>
    rw [holdsStep, Bool.and_eq_true] at hheld
    exact hheld.1
  | getChildren zh p a => exact hheld
  | notify f children => exact hheld

theorem foldl_spares {h : Nat} {held : Bool} {ops : List Op} (hops : ∀ op ∈ ops, Spares path op)
    (hheld : ops.foldl (holdsStep h path) held = true) : held = true := by
  induction ops generalizing held with
  | nil => exact hheld
  | cons op ops ih =>
    have hrest := ih (fun op' hop' => hops op' (List.mem_cons_of_mem _ hop')) hheld
    exact holdsStep_spares (hops op List.mem_cons_self) hrest

theorem quiet_of_ops (ops : List Op) (hzk : s'.zk = s.zk) (hretries : s'.retries = s.retries)
    (hlog : s'.log = s.log ++ ops) (hops : ∀ op ∈ ops, Spares path op) : Quiet path s s' := by
  refine ⟨hzk, by rw [hretries], fun h hheld => ?_⟩
  rw [hlog, holds_append] at hheld
  exact foldl_spares hops hheld

theorem quiet_core (hzk : s'.zk = s.zk) (hretries : s'.retries = s.retries)
    (hlog : s'.log = s.log) : Quiet path s s' :=
  quiet_of_ops [] hzk hretries (by rw [hlog, List.append_nil]) (by simp)

theorem quiet_trans (s t u : ZookeeperClient) (h : Quiet path s t) (h' : Quiet path t u) :
    Quiet path s u :=
  ⟨h'.zk.trans h.zk, Nat.le_trans h'.retries h.retries, fun k hheld => h.holds k (h'.holds k hheld)⟩

theorem Quiet.owns (h : Quiet path s s') (howns : Owns s' path) : Owns s path := by
  unfold Owns at howns ⊢
  rw [h.zk] at howns
  obtain ⟨k, hk, hheld⟩ := (Option.any_eq_true _ _).mp howns
  exact (Option.any_eq_true _ _).mpr ⟨k, hk, h.holds k hheld⟩

theorem Quiet.not_mem (h : Quiet path s s') (hnot : path ∉ s.retries) : path ∉ s'.retries := by
  rw [← List.count_eq_zero] at hnot ⊢
  exact Nat.eq_zero_of_le_zero (hnot ▸ h.retries)

theorem Quiet.single (h : Quiet path s s') (hs : Single path s) : Single path s' :=
  ⟨Nat.le_trans h.retries hs.one, fun howns => h.not_mem (hs.done (h.owns howns))⟩

theorem spares_getChildren (zh : Option Nat) (p : Bytes) (a : Answer) :
    Spares path (.getChildren zh p a) := by
  intro k hop
  cases hop

theorem spares_notify (f : Nat) (children : List Bytes) : Spares path (.notify f children) := by
  intro k hop
  cases hop

theorem spares_plain {zh : Option Nat} {p : Bytes} {flags : Nat} {ret : Int}
    (hflags : flags ≠ zooEphemeral) :
    Spares path (.create zh p flags ret) := by
  intro k hop
  cases hop
  exact hflags rfl

theorem quiet_frame (cb : Option Nat) : PlainFetchFrame (Quiet path) cb where
  refl s := quiet_core rfl rfl rfl
  trans := quiet_trans
  create s p flags ret hflags :=
    quiet_of_ops [.create s.zk p flags ret] rfl rfl rfl (by simpa using spares_plain hflags)
  asked s p a _ :=
    quiet_of_ops [.getChildren s.zk p a] rfl rfl rfl (by simpa using spares_getChildren s.zk p a)
  notified s p a _ := by
    have hasked : Quiet path s (asked s p a) :=
      quiet_of_ops [.getChildren s.zk p a] rfl rfl rfl (by simpa using spares_getChildren s.zk p a)
    refine quiet_trans _ _ _ hasked ?_
    cases cb with
    | some f =>
      exact quiet_of_ops [.notify f a.children] rfl rfl rfl
        (by simpa using spares_notify f a.children)
    | none =>
      refine quiet_of_ops
        (((asked s p a).watchersAt p).toList.map fun kv => .notify kv.2 a.children) rfl rfl rfl ?_
      intro op hop
      obtain ⟨kv, -, rfl⟩ := List.mem_map.mp hop
      exact spares_notify kv.2 a.children

theorem quiet_setWatchers (s : ZookeeperClient) (p : Bytes) (m : WatcherMap) :
    Quiet path s (s.setWatchers p m) :=
  quiet_core rfl rfl rfl

theorem quiet_delete (s : ZookeeperClient) (p : Bytes) (ret : Int) :
    Quiet path s (s.addOp (.delete s.zk p ret)) := by
  refine quiet_of_ops [.delete s.zk p ret] rfl rfl rfl fun op hop k hcreate => ?_
  rw [List.mem_singleton.mp hop] at hcreate
  cases hcreate

end Quiet

section Calls

variable {path p : Bytes} {s s' : ZookeeperClient} {answers : List Answer} {ok : Bool}

/-- The loop over the parents creates no ephemeral node. -/
theorem calls_spare {zk : Option Nat} {paths : List Bytes} {ops : List Op}
    (h : Calls zk paths answers ops ok) :
    ∀ op ∈ ops, Spares p op := by
  induction h with
  | done => simp
  | refused ha => simpa using spares_plain (by decide)
  | next ha hrest ih =>
    intro op hop
    cases hop with
    | head => exact spares_plain (by decide)
    | tail _ hop => exact ih op hop

/-- The create after the loop, if it is another node's or has not made one. -/
theorem leaf_spares {zk : Option Nat} {paths : List Bytes} {ops : List Op} {flags : Nat} {ret : Int}
    (h : Calls zk paths answers ops ok) (hleaf : p ≠ path ∨ ret ≠ zOk) :
    ∀ op ∈ ops ++ [.create zk path flags ret], Spares p op := by
  intro op hop
  rcases List.mem_append.mp hop with hop | hop
  · exact calls_spare h op hop
  · intro k hcreate
    rw [List.mem_singleton.mp hop] at hcreate
    cases hcreate
    rcases hleaf with hne | hret
    · exact hne rfl
    · exact hret rfl

theorem refused_ne {ret : Int} (h : ¬ Accepted ret) : ret ≠ zOk := fun hret => h (.inl hret)

/-- A call for another path. -/
theorem delayed_other (h : Delayed path s answers ok s') (hne : p ≠ path) : Quiet p s s' := by
  cases h with
  | offline h => exact quiet_core rfl rfl rfl
  | parent h hcalls => exact quiet_of_ops _ rfl rfl rfl (calls_spare hcalls)
  | refused h hcalls ha => exact quiet_of_ops _ rfl rfl rfl (leaf_spares hcalls (.inl hne))
  | created h hcalls ha => exact quiet_of_ops _ rfl rfl rfl (leaf_spares hcalls (.inl hne))
  | @existing used ops a h hcalls ha =>
    have hquiet : Quiet p s
        (logged (s.addNode path) (ops ++ [.create s.zk path zooEphemeral a.ret])) :=
      quiet_of_ops _ rfl rfl rfl (leaf_spares hcalls (.inl hne))
    refine quiet_trans _ _ _ hquiet ⟨rfl, ?_, fun _ hheld => hheld⟩
    show (s.retries ++ [path]).count p ≤ s.retries.count p
    rw [List.count_append, List.count_singleton, if_neg (by simpa using Ne.symm hne), Nat.add_zero]

theorem ends_append {used : List Answer} {a : Answer} (hused : ∀ b ∈ used, Accepted b.ret)
    (ha : Accepted a.ret) :
    Ends (used ++ [a]) a.ret := by
  refine ⟨List.forall_mem_append.mpr ⟨hused, List.forall_mem_singleton.mpr ha⟩, ?_⟩
  rw [List.getLast?_concat]
  rfl

/-- A call for the path itself. -/
theorem delayed_self (h : Delayed path s answers ok s') (hs : Single path s)
    (hready : Ready path s answers) :
    Single path s' := by
  cases h with
  | offline h => exact Quiet.single (s := s) (quiet_core rfl rfl rfl) hs
  | parent h hcalls =>
    exact Quiet.single (s := s) (quiet_of_ops _ rfl rfl rfl (calls_spare hcalls)) hs
  | refused h hcalls ha =>
    exact Quiet.single (s := s)
      (quiet_of_ops _ rfl rfl rfl (leaf_spares hcalls (.inr (refused_ne ha)))) hs
  | created h hcalls ha =>
    have hends := ends_append (hcalls.ok_iff.mp rfl) (.inl ha)
    rw [ha] at hends
    exact ⟨hs.one, fun _ => hready.1 hends⟩
  | @existing used ops a h hcalls ha =>
    have hends := ends_append (hcalls.ok_iff.mp rfl) (.inr ha)
    rw [ha] at hends
    obtain ⟨hnot, howns⟩ := hready.2 hends
    have hret : a.ret ≠ zOk := by
      rw [ha]
      decide
    have hquiet : Quiet path s
        (logged (s.addNode path) (ops ++ [.create s.zk path zooEphemeral a.ret])) :=
      quiet_of_ops _ rfl rfl rfl (leaf_spares hcalls (.inr hret))
    constructor
    · show (s.retries ++ [path]).count path ≤ 1
      rw [List.count_append, List.count_eq_zero.mpr hnot, List.count_singleton_self, Nat.zero_add]
    · intro howns'
      exact absurd (hquiet.owns howns') howns

theorem delayed_single (h : Delayed path s answers ok s') (hs : ∀ p, Single p s)
    (hready : Ready path s answers) :
    ∀ p, Single p s' := by
  intro p
  by_cases hp : p = path
  · rw [hp]
    exact delayed_self h (hs path) hready
  · exact (delayed_other h hp).single (hs p)

/-- No retry and no node: every answer will do. -/
theorem ready_of_clear (answers : List Answer) (hnot : path ∉ s.retries) (howns : ¬ Owns s path) :
    Ready path s answers :=
  ⟨fun _ => hnot, fun _ => ⟨hnot, howns⟩⟩

end Calls

section Steps

variable {s s' : ZookeeperClient} {path : Bytes} {answers : List Answer} {u : Unit}

/-- A method that creates no ephemeral node. -/
theorem plain_single {α : Type} {x : Zk α} {a : α} (hx : ∀ p, Respects (Quiet p) x)
    (hs : ∀ p, Single p s) (h : exec x s answers = some (a, s')) : ∀ p, Single p s' := by
  intro p
  exact ((hx p).exec h).single (hs p)

theorem createNode_single {recursive : Bool} {ok : Bool} (hs : ∀ p, Single p s)
    (hready : Ends answers zOk → path ∉ s.retries)
    (h : Creates recursive path .ephemeral s answers ok s') : ∀ p, Single p s' := by
  intro p
  cases h with
  | offline h => exact hs p
  | parent h hcalls =>
    exact Quiet.single (s := s) (quiet_of_ops _ rfl rfl rfl (calls_spare hcalls)) (hs p)
  | refused h hcalls ha =>
    exact Quiet.single (s := s)
      (quiet_of_ops _ rfl rfl rfl (leaf_spares hcalls (.inr (refused_ne ha)))) (hs p)
  | @made used ops a h hcalls ha =>
    by_cases hother : p ≠ path ∨ a.ret ≠ zOk
    · exact Quiet.single (s := s) (quiet_of_ops _ rfl rfl rfl (leaf_spares hcalls hother)) (hs p)
    · obtain ⟨rfl, hret⟩ : p = path ∧ a.ret = zOk := by simpa only [not_or, not_not] using hother
      have hends := ends_append (hcalls.ok_iff.mp rfl) ha
      rw [hret] at hends
      exact ⟨(hs p).one, fun _ => hready hends⟩

/-- The loop over the nodes, each of which is there once. -/
theorem createAll_single {nodes : List Bytes} {p q : ZookeeperClient × List Answer}
    (hnodup : nodes.Nodup)
    (hs : ∀ path, Single path p.1) (hclear : ∀ path ∈ nodes, path ∉ p.1.retries ∧ ¬ Owns p.1 path)
    (h : createAll nodes p = some (u, q)) : ∀ path, Single path q.1 := by
  induction nodes generalizing p with
  | nil =>
    obtain ⟨-, rfl⟩ := pure_eq_some.mp h
    exact hs
  | cons node rest ih =>
    obtain ⟨ok, m, hnode, hrest⟩ := bind_eq_some.mp h
    obtain ⟨used, -, hdelayed⟩ := delayed_of_eq_some hnode
    obtain ⟨hnot, howns⟩ := hclear node List.mem_cons_self
    have hm := delayed_single hdelayed hs (ready_of_clear used hnot howns)
    refine ih (List.nodup_cons.mp hnodup).2 hm (fun path hpath => ?_) hrest
    have hne : path ≠ node := fun heq => (List.nodup_cons.mp hnodup).1 (heq ▸ hpath)
    have hquiet := delayed_other hdelayed hne
    obtain ⟨hnot', howns'⟩ := hclear path (List.mem_cons_of_mem _ hpath)
    exact ⟨hquiet.not_mem hnot', mt hquiet.owns howns'⟩

theorem nodup_nodes (s : ZookeeperClient) : s.ephemeralNodes.toList.Nodup := by
  refine List.Pairwise.imp (fun h heq => h ?_) Std.ExtTreeSet.distinct_toList
  rw [heq]
  exact Std.ReflCmp.compare_self

theorem sameNodes_frame (cb : Option Nat) :
    PlainFetchFrame (fun s s' : ZookeeperClient => s'.ephemeralNodes = s.ephemeralNodes) cb where
  refl s := rfl
  trans s t v h h' := h'.trans h
  create s p flags ret hflags := rfl
  asked s p a _ := rfl
  notified s p a _ := by cases cb <;> rfl

/-- A session comes up. -/
theorem connected_single {zh : Nat} (hretries : s.retries = [])
    (hnew : ∀ path ∈ s.ephemeralNodes.toList, holds zh path s.log = false)
    (h : exec (onConnected zh) s answers = some (u, s')) : ∀ p, Single p s' := by
  obtain ⟨_, m₀, hset, hrest⟩ := bind_eq_some.mp (exec_eq_some.mp h)
  obtain rfl := update_eq_some.mp hset
  obtain ⟨paths, m₁, hview, hrest⟩ := bind_eq_some.mp hrest
  obtain ⟨rfl, rfl⟩ := view_eq_some.mp hview
  obtain ⟨_, m₂, hfetch, hrest⟩ := bind_eq_some.mp hrest
  obtain ⟨nodes, m₃, hview, hrest⟩ := bind_eq_some.mp hrest
  obtain ⟨rfl, rfl⟩ := view_eq_some.mp hview
  have hnodes : m₂.1.ephemeralNodes = s.ephemeralNodes :=
    (sameNodes_frame none).respects_fetchAll _ _ _ _ hfetch
  have hquiet (p : Bytes) : Quiet p { s with zk := some zh } m₂.1 :=
    (quiet_frame none).respects_fetchAll _ _ _ _ hfetch
  have hnone (p : Bytes) : p ∉ m₂.1.retries := by
    apply (hquiet p).not_mem
    simp [hretries]
  have hsingle (p : Bytes) : Single p m₂.1 := by
    refine ⟨?_, fun _ => hnone p⟩
    rw [List.count_eq_zero.mpr (hnone p)]
    exact Nat.zero_le 1
  refine createAll_single (nodup_nodes _) hsingle
    (fun path hpath => ⟨hnone path, fun howns => ?_⟩) hrest
  have hheld : holds zh path s.log = true := by simpa [Owns] using (hquiet path).owns howns
  rw [hnodes] at hpath
  rw [hnew path hpath] at hheld
  cases hheld

/-- A session that goes away owns nothing. -/
theorem lost_single (hs : ∀ p, Single p s) : ∀ p, Single p (onLost s) := by
  intro p
  unfold onLost
  cases hzk : s.zk with
  | none => exact Quiet.single (s := s) (quiet_core hzk.symm rfl rfl) (hs p)
  | some h =>
    refine ⟨(hs p).one, fun howns => ?_⟩
    cases howns

theorem onWatch_single {e : Event} (hs : ∀ p, Single p s)
    (hcareful : e.type = zooSessionEvent → e.state = zooConnectedState →
      s.retries = [] ∧ ∀ path ∈ s.ephemeralNodes.toList, holds e.zh path s.log = false)
    (h : exec (onWatch e) s answers = some (u, s')) : ∀ p, Single p s' := by
  unfold onWatch at h
  split at h
  · rename_i htype
    split at h
    · rename_i hstate
      obtain ⟨hretries, hnew⟩ := hcareful htype hstate
      exact connected_single hretries hnew h
    · cases update_eq_some.mp (exec_eq_some.mp h)
      exact lost_single hs
  · split at h
    · obtain ⟨ok, p, hfetch, hpure⟩ := bind_eq_some.mp (exec_eq_some.mp h)
      obtain ⟨-, rfl⟩ := pure_eq_some.mp hpure
      intro path
      exact ((quiet_frame none).respects_fetchChildren e.path _ _ _ hfetch).single (hs path)
    · obtain ⟨-, hp⟩ := pure_eq_some.mp (exec_eq_some.mp h)
      cases hp
      exact hs

/-- The coroutine that runs was the only one, and the client has no node while it waits. -/
theorem retry_single (hs : ∀ p, Single p s) (hmem : path ∈ s.retries)
    (h : exec (retry path) { s with retries := s.retries.erase path } answers = some (u, s')) :
    ∀ p, Single p s' := by
  have hnot : path ∉ s.retries.erase path := by
    have hone := (hs path).one
    rw [← List.count_eq_zero, List.count_erase_self]
    omega
  have hquiet (p : Bytes) : Quiet p s { s with retries := s.retries.erase path } :=
    ⟨rfl, List.erase_sublist.count_le p, fun _ hheld => hheld⟩
  have hs₀ (p : Bytes) : Single p { s with retries := s.retries.erase path } :=
    (hquiet p).single (hs p)
  have howns : ¬ Owns { s with retries := s.retries.erase path } path :=
    fun howns => (hs path).done howns hmem
  obtain ⟨wanted, m, hview, hrest⟩ := bind_eq_some.mp (exec_eq_some.mp h)
  obtain ⟨-, rfl⟩ := view_eq_some.mp hview
  split at hrest
  · obtain ⟨ok, m', hdelay, hpure⟩ := bind_eq_some.mp hrest
    obtain ⟨-, rfl⟩ := pure_eq_some.mp hpure
    obtain ⟨used, -, hdelayed⟩ := delayed_of_eq_some hdelay
    exact delayed_single hdelayed hs₀ (ready_of_clear used hnot howns)
  · obtain ⟨-, hp⟩ := pure_eq_some.mp hrest
    cases hp
    exact hs₀

theorem step_single {act : Action} (hs : ∀ p, Single p s) (hcareful : Careful s act)
    (h : step s act = some s') :
    ∀ p, Single p s' := by
  cases step_cases h with
  | connect ok hleft =>
    intro p
    unfold connect
    split <;> exact Quiet.single (s := s) (quiet_core rfl rfl rfl) (hs p)
  | enqueue hopen hroom => exact fun p => Quiet.single (s := s) (quiet_core rfl rfl rfl) (hs p)
  | @onWatch e rest _ _ _ hchan ht =>
    have hs₀ : ∀ p, Single p { s with eventChan := rest } := fun p =>
      Quiet.single (s := s) (quiet_core rfl rfl rfl) (hs p)
    exact onWatch_single hs₀ (hcareful e (by rw [hchan]; rfl)) ht
  | retry hmem ht => exact retry_single hs hmem ht
  | @watch path cb key _ _ _ ht =>
    exact plain_single
      (fun p => (quiet_frame (some cb)).respects_watch quiet_setWatchers path key) hs ht
  | @unwatch path key _ _ ht =>
    exact plain_single
      (fun p => (quiet_frame none).respects_unwatch quiet_setWatchers path key) hs ht
  | @createNode path flags recursive _ _ _ ht =>
    by_cases hflags : flags = .ephemeral
    · subst hflags
      obtain ⟨used, htape, hcreates⟩ := createNode_eq_some.mp (exec_eq_some.mp ht)
      rw [List.append_nil] at htape
      cases htape
      exact createNode_single hs hcareful hcreates
    · exact plain_single
        (fun p => (quiet_frame none).respects_createNode path hflags recursive) hs ht
  | delayCreateEphemeralNode ht => exact delayed_single (delayed_of_exec ht) hs hcareful
  | @deleteNode path _ _ _ ht =>
    exact plain_single (fun p => (quiet_frame none).respects_deleteNode quiet_delete path) hs ht

/-- In a run of careful steps, whatever else happens and whatever the server answers, at most one
retry waits for a path, and none for a node that the client's own session has created. -/
theorem careful_single (acts : List Action) (s : ZookeeperClient)
    (hcareful : Guarded step Careful .init acts)
    (h : run step .init acts = some s) : ∀ path, Single path s := by
  refine guarded_invariant (I := fun s => ∀ path, Single path s) ?_
    (fun m act m' hm hact hstep => ?_) hcareful h
  · intro path
    exact ⟨Nat.zero_le 1, fun _ => List.not_mem_nil⟩
  · exact step_single hm hact hstep

end Steps

section Runs

def existing : Answer := ⟨zNodeExists, []⟩

/-- A session is up, and `/a/b` is there already. -/
def waitingRun : List Action :=
  [.connect true, .enqueue ⟨0, zooSessionEvent, zooConnectedState, []⟩, .onWatch [],
    .delayCreateEphemeralNode samplePath [created, existing]]

theorem careful_single_waiting : ∃ s, run step .init waitingRun = some s ∧ samplePath ∈ s.retries ∧
    Single samplePath s := by
  obtain ⟨s, hs, hmem⟩ :=
    run_exists step .init waitingRun (fun s => decide (samplePath ∈ s.retries)) (by decide +kernel)
  exact ⟨s, hs, of_decide_eq_true hmem,
    careful_single waitingRun s (by decide +kernel) hs samplePath⟩

/-- The next session creates `/a/b` while the retry waits, which then finds the node of its own
client and waits again. -/
theorem own_node_retried :
    (∃ s t, run step .init (waitingRun ++ nextSession) = some s ∧ Owns s samplePath ∧
      samplePath ∈ s.retries ∧
      step s (.retry samplePath [existing, existing]) = some t ∧ Owns t samplePath ∧
    samplePath ∈ t.retries) ∧
    ¬ ∀ (acts : List Action) (s : ZookeeperClient), run step .init acts = some s →
    ∀ path, Single path s := by
  obtain ⟨s, hs, hrest⟩ := run_exists step .init (waitingRun ++ nextSession)
    (fun s => decide (Owns s samplePath) && decide (samplePath ∈ s.retries) &&
      (step s (.retry samplePath [existing, existing])).any fun t =>
        decide (Owns t samplePath) && decide (samplePath ∈ t.retries)) (by decide +kernel)
  simp only [Bool.and_eq_true, decide_eq_true_eq] at hrest
  obtain ⟨⟨howns, hmem⟩, hretry⟩ := hrest
  obtain ⟨t, ht, hagain⟩ := (Option.any_eq_true _ _).mp hretry
  rw [Bool.and_eq_true, decide_eq_true_eq, decide_eq_true_eq] at hagain
  refine ⟨⟨s, t, hs, howns, hmem, ht, hagain⟩, fun hall => ?_⟩
  exact (hall _ s hs samplePath).done howns hmem

end Runs

end Ucorf.ZookeeperRetries
