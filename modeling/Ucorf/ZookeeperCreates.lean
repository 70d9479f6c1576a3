import Ucorf.ZookeeperFrames

/-!
# What the creating methods do

`CreateNode` and `DelayCreateEphemeralNode` create the parents of a node one after the
other, up to the first error, and then the node. Each way through them is a constructor
here, with the answers that it has got and the calls that it has left in the record.
-/
namespace Ucorf.ZookeeperCreates

open Ucorf.Message
open Ucorf.Scripts
open Ucorf.Zookeeper

/-- The answers of `zoo_create` that the loops go on after. -/
def Accepted (ret : Int) : Prop := ret = zOk ∨ ret = zNodeExists

instance (ret : Int) : Decidable (Accepted ret) := inferInstanceAs (Decidable (_ ∨ _))

theorem refused_iff {ret : Int} : (ret ≠ zOk ∧ ret ≠ zNodeExists) ↔ ¬ Accepted ret := not_or.symm

/-- The calls are added to the record. -/
def logged (s : ZookeeperClient) (ops : List Op) : ZookeeperClient := { s with log := s.log ++ ops }

@[simp] theorem logged_nil (s : ZookeeperClient) : logged s [] = s := by simp [logged]

@[simp] theorem logged_logged (s : ZookeeperClient) (ops ops' : List Op) :
    logged (logged s ops) ops' = logged s (ops ++ ops') := by simp [logged]

/-- The loop over the parents: the answers, the calls and whether it came to its end. -/
inductive Calls (zk : Option Nat) : List Bytes → List Answer → List Op → Bool → Prop where
  | done : Calls zk [] [] [] true
  | refused {parent : Bytes} {rest : List Bytes} {a : Answer} (h : ¬ Accepted a.ret) :
      Calls zk (parent :: rest) [a] [.create zk parent 0 a.ret] false
  | next {parent : Bytes} {rest : List Bytes} {a : Answer} {used : List Answer}
      {ops : List Op} {ok : Bool} (h : Accepted a.ret) (hrest : Calls zk rest used ops ok) :
      Calls zk (parent :: rest) (a :: used) (.create zk parent 0 a.ret :: ops) ok

/-- The paths that `CreateNode` creates before the node. -/
def above : Bool → Bytes → List Bytes
  | true, path => parents path
  | false, _ => []

/-- The ways through `CreateNode`. -/
inductive Creates (recursive : Bool) (path : Bytes) (flags : CreateNodeFlags)
    (s : ZookeeperClient) : List Answer → Bool → ZookeeperClient → Prop where
  | offline (h : s.zk = none) : Creates recursive path flags s [] false s
  | parent {used : List Answer} {ops : List Op} (h : s.zk ≠ none)
      (hcalls : Calls s.zk (above recursive path) used ops false) :
      Creates recursive path flags s used false (logged s ops)
  | refused {used : List Answer} {ops : List Op} {a : Answer} (h : s.zk ≠ none)
      (hcalls : Calls s.zk (above recursive path) used ops true) (ha : ¬ Accepted a.ret) :
      Creates recursive path flags s (used ++ [a]) false
        (logged s (ops ++ [.create s.zk path (createFlags flags) a.ret]))
  | made {used : List Answer} {ops : List Op} {a : Answer} (h : s.zk ≠ none)
      (hcalls : Calls s.zk (above recursive path) used ops true) (ha : Accepted a.ret) :
      Creates recursive path flags s (used ++ [a]) true
        (let t := logged s (ops ++ [.create s.zk path (createFlags flags) a.ret])
         if flags = .ephemeral then t.addNode path else t)

/-- The ways through `DelayCreateEphemeralNode`, which takes the path down first. -/
inductive Delayed (path : Bytes) (s : ZookeeperClient) :
    List Answer → Bool → ZookeeperClient → Prop where
  | offline (h : s.zk = none) : Delayed path s [] true (s.addNode path)
  | parent {used : List Answer} {ops : List Op} (h : s.zk ≠ none)
      (hcalls : Calls s.zk (parents path) used ops false) :
      Delayed path s used false (logged (s.addNode path) ops)
  | refused {used : List Answer} {ops : List Op} {a : Answer} (h : s.zk ≠ none)
      (hcalls : Calls s.zk (parents path) used ops true) (ha : ¬ Accepted a.ret) :
      Delayed path s (used ++ [a]) false
        (logged (s.addNode path) (ops ++ [.create s.zk path zooEphemeral a.ret]))
  | created {used : List Answer} {ops : List Op} {a : Answer} (h : s.zk ≠ none)
      (hcalls : Calls s.zk (parents path) used ops true) (ha : a.ret = zOk) :
      Delayed path s (used ++ [a]) true
        (logged (s.addNode path) (ops ++ [.create s.zk path zooEphemeral a.ret]))
  | existing {used : List Answer} {ops : List Op} {a : Answer} (h : s.zk ≠ none)
      (hcalls : Calls s.zk (parents path) used ops true) (ha : a.ret = zNodeExists) :
      Delayed path s (used ++ [a]) true
        ((logged (s.addNode path) (ops ++ [.create s.zk path zooEphemeral a.ret])).addRetry path)

section Scripts

variable {p q : ZookeeperClient × List Answer} {path : Bytes} {ok : Bool}

theorem zooCreate_eq_some {flags : Nat} {ret : Int} : zooCreate path flags p = some (ret, q) ↔
    ∃ a, p.2 = a :: q.2 ∧ ret = a.ret ∧ q.1 = logged p.1 [.create p.1.zk path flags a.ret] := by
  constructor
  · intro h
    obtain ⟨a, m, hask, hrest⟩ := bind_eq_some.mp h
    obtain ⟨_, m', hop, hpure⟩ := bind_eq_some.mp hrest
    obtain ⟨hstate, htape⟩ := ask_eq_some.mp hask
    obtain ⟨rfl, rfl⟩ := pure_eq_some.mp hpure
    have hm := update_eq_some.mp hop
    subst hm
    exact ⟨a, htape, rfl, by rw [hstate]; rfl⟩
  · rintro ⟨a, htape, rfl, hstate⟩
    refine bind_eq_some.mpr ⟨a, (p.1, q.2), ask_eq_some.mpr ⟨rfl, htape⟩, ?_⟩
    refine bind_eq_some.mpr ⟨(), q, ?_, pure_eq_some.mpr ⟨rfl, rfl⟩⟩
    exact update_eq_some.mpr (Prod.ext hstate rfl)

theorem createParents_eq_some {paths : List Bytes} : createParents paths p = some (ok, q) ↔
    ∃ used ops, Calls p.1.zk paths used ops ok ∧ p.2 = used ++ q.2 ∧ q.1 = logged p.1 ops := by
  induction paths generalizing p with
  | nil =>
    constructor
    · intro h
      obtain ⟨rfl, rfl⟩ := pure_eq_some.mp h
      exact ⟨[], [], .done, rfl, (logged_nil _).symm⟩
    · rintro ⟨used, ops, hcalls, htape, hstate⟩
      cases hcalls
      rw [logged_nil] at hstate
      exact pure_eq_some.mpr ⟨rfl, Prod.ext hstate.symm htape⟩
  | cons parent rest ih =>
    constructor
    · intro h
      obtain ⟨ret, m, hcreate, hrest⟩ := bind_eq_some.mp h
      obtain ⟨a, htape, rfl, hstate⟩ := zooCreate_eq_some.mp hcreate
      split at hrest
      · rename_i hret
        obtain ⟨rfl, rfl⟩ := pure_eq_some.mp hrest
        exact ⟨[a], _, .refused (refused_iff.mp hret), htape, hstate⟩
      · rename_i hret
        obtain ⟨used, ops, hcalls, htape', hstate'⟩ := ih.mp hrest
        have hzk : m.1.zk = p.1.zk := by rw [hstate]; rfl
        rw [hzk] at hcalls
        refine ⟨a :: used, _, .next (not_not.mp (mt refused_iff.mpr hret)) hcalls, ?_, ?_⟩
        · rw [htape, htape', List.cons_append]
        · rw [hstate', hstate, logged_logged, List.singleton_append]
    · rintro ⟨used, ops, hcalls, htape, hstate⟩
      cases hcalls with
      | @refused _ _ a h =>
        refine bind_eq_some.mpr ⟨a.ret, q, zooCreate_eq_some.mpr ⟨a, htape, rfl, hstate⟩, ?_⟩
        rw [if_pos (refused_iff.mpr h)]
        exact pure_eq_some.mpr ⟨rfl, rfl⟩
      | @next _ _ a used ops _ h hrest =>
        refine bind_eq_some.mpr ⟨a.ret, (logged p.1 [.create p.1.zk parent 0 a.ret], used ++ q.2),
          zooCreate_eq_some.mpr ⟨a, htape, rfl, rfl⟩, ?_⟩
        rw [if_neg (mt refused_iff.mp (not_not.mpr h))]
        exact ih.mpr ⟨used, ops, hrest, rfl, by rw [hstate, logged_logged, List.singleton_append]⟩

/-- The node itself, once its parents are there. -/
theorem createLeaf_eq_some {flags : CreateNodeFlags} : createLeaf path flags p = some (ok, q) ↔
    ∃ a, p.2 = a :: q.2 ∧ ok = decide (Accepted a.ret) ∧
      q.1 = (let t := logged p.1 [.create p.1.zk path (createFlags flags) a.ret]
        if Accepted a.ret ∧ flags = .ephemeral then t.addNode path else t) := by
  constructor
  · intro h
    obtain ⟨ret, m, hcreate, hrest⟩ := bind_eq_some.mp h
    obtain ⟨a, htape, rfl, hstate⟩ := zooCreate_eq_some.mp hcreate
    split at hrest
    · rename_i hret
      obtain ⟨rfl, rfl⟩ := pure_eq_some.mp hrest
      have hnot := refused_iff.mp hret
      exact ⟨a, htape, (decide_eq_false hnot).symm, by simpa [hnot] using hstate⟩
    · rename_i hret
      have hacc := not_not.mp (mt refused_iff.mpr hret)
      obtain ⟨_, m', hset, hpure⟩ := bind_eq_some.mp hrest
      obtain ⟨rfl, rfl⟩ := pure_eq_some.mp hpure
      have hm := update_eq_some.mp hset
      subst hm
      refine ⟨a, htape, (decide_eq_true hacc).symm, ?_⟩
      simp only [hacc, true_and, hstate]
  · rintro ⟨a, htape, rfl, hstate⟩
    refine bind_eq_some.mpr
      ⟨a.ret, (logged p.1 [.create p.1.zk path (createFlags flags) a.ret], q.2),
      zooCreate_eq_some.mpr ⟨a, htape, rfl, rfl⟩, ?_⟩
    by_cases hacc : Accepted a.ret
    · rw [if_neg (mt refused_iff.mp (not_not.mpr hacc))]
      refine bind_eq_some.mpr ⟨(), q, update_eq_some.mpr (Prod.ext ?_ rfl), ?_⟩
      · simp only [hacc, true_and] at hstate
        exact hstate
      · exact pure_eq_some.mpr ⟨(decide_eq_true hacc).symm, rfl⟩
    · rw [if_pos (refused_iff.mpr hacc)]
      refine pure_eq_some.mpr ⟨(decide_eq_false hacc).symm, Prod.ext ?_ rfl⟩
      simp only [hacc, false_and, if_false] at hstate
      exact hstate.symm

theorem delayCreateLeaf_cases (h : delayCreateLeaf path p = some (ok, q)) :
    ∃ a, p.2 = a :: q.2 ∧
      (a.ret = zOk ∧ ok = true ∧ q.1 = logged p.1 [.create p.1.zk path zooEphemeral a.ret] ∨
        a.ret = zNodeExists ∧ ok = true ∧
          q.1 = (logged p.1 [.create p.1.zk path zooEphemeral a.ret]).addRetry path ∨
        ¬ Accepted a.ret ∧ ok = false ∧
          q.1 = logged p.1 [.create p.1.zk path zooEphemeral a.ret]) := by
  obtain ⟨ret, m, hcreate, hrest⟩ := bind_eq_some.mp h
  obtain ⟨a, htape, rfl, hstate⟩ := zooCreate_eq_some.mp hcreate
  split at hrest
  · rename_i hret
    obtain ⟨rfl, rfl⟩ := pure_eq_some.mp hrest
    exact ⟨a, htape, .inl ⟨hret, rfl, hstate⟩⟩
  · rename_i hok
    split at hrest
    · rename_i hret
      obtain ⟨_, m', hadd, hpure⟩ := bind_eq_some.mp hrest
      obtain ⟨rfl, rfl⟩ := pure_eq_some.mp hpure
      obtain rfl := update_eq_some.mp hadd
      exact ⟨a, htape, .inr (.inl ⟨hret, rfl, by rw [hstate]⟩)⟩
    · rename_i hexists
      obtain ⟨rfl, rfl⟩ := pure_eq_some.mp hrest
      exact ⟨a, htape, .inr (.inr ⟨not_or.mpr ⟨hok, hexists⟩, rfl, hstate⟩)⟩

/-- Without a session nothing is created, and with one the leaf comes behind the loop over the
parents. -/
theorem behindParents_eq_some {alone : Bool} {paths : List Bytes} {leaf : Zk Bool} :
    (do
      let zk ← view ZookeeperClient.zk
      if zk = none then return alone
      else do
        let ok ← createParents paths
        if ok then leaf else return false : Zk Bool) p = some (ok, q) ↔
      (p.1.zk = none ∧ ok = alone ∧ q = p) ∨
      (p.1.zk ≠ none ∧ ∃ used ops rest, p.2 = used ++ rest ∧
        (Calls p.1.zk paths used ops false ∧ ok = false ∧ q = (logged p.1 ops, rest) ∨
          Calls p.1.zk paths used ops true ∧ leaf (logged p.1 ops, rest) = some (ok, q))) := by
  constructor
  · intro h
    obtain ⟨zk, m, hview, hrest⟩ := bind_eq_some.mp h
    obtain ⟨rfl, rfl⟩ := view_eq_some.mp hview
    split at hrest
    · rename_i hnone
      obtain ⟨rfl, rfl⟩ := pure_eq_some.mp hrest
      exact .inl ⟨hnone, rfl, rfl⟩
    · rename_i hsome
      obtain ⟨done, ⟨s', rest⟩, hparents, hrest⟩ := bind_eq_some.mp hrest
      obtain ⟨used, ops, hcalls, htape, hstate⟩ := createParents_eq_some.mp hparents
      dsimp only at htape hstate
      subst hstate
      refine .inr ⟨hsome, used, ops, rest, htape, ?_⟩
      cases done with
      | false =>
        obtain ⟨rfl, rfl⟩ := pure_eq_some.mp hrest
        exact .inl ⟨hcalls, rfl, rfl⟩
      | true => exact .inr ⟨hcalls, hrest⟩
  · intro h
    refine bind_eq_some.mpr ⟨p.1.zk, p, view_eq_some.mpr ⟨rfl, rfl⟩, ?_⟩
    obtain ⟨hnone, rfl, rfl⟩ | ⟨hsome, used, ops, rest, htape, hleaf⟩ := h
    · rw [if_pos hnone]
      exact pure_eq_some.mpr ⟨rfl, rfl⟩
    · rw [if_neg hsome]
      obtain ⟨hcalls, rfl, rfl⟩ | ⟨hcalls, hleaf⟩ := hleaf
      · exact bind_eq_some.mpr ⟨false, _, createParents_eq_some.mpr ⟨used, ops, hcalls, htape, rfl⟩,
          pure_eq_some.mpr ⟨rfl, rfl⟩⟩
      · exact bind_eq_some.mpr ⟨true, _, createParents_eq_some.mpr ⟨used, ops, hcalls, htape, rfl⟩,
          hleaf⟩

theorem createAbove_eq (recursive : Bool) (path : Bytes) :
    (if recursive then createParents (parents path) else pure true : Zk Bool) =
      createParents (above recursive path) := by
  cases recursive <;> rfl

theorem createNode_eq_some {flags : CreateNodeFlags} {recursive : Bool} :
    createNode path flags recursive p = some (ok, q) ↔
      ∃ used, p.2 = used ++ q.2 ∧ Creates recursive path flags p.1 used ok q.1 := by
  unfold createNode
  rw [createAbove_eq]
  constructor
  · intro h
    obtain ⟨hnone, rfl, rfl⟩ | ⟨hsome, used, ops, rest, htape, hleaf⟩ := behindParents_eq_some.mp h
    · exact ⟨[], rfl, .offline hnone⟩
    · obtain ⟨hcalls, rfl, rfl⟩ | ⟨hcalls, hleaf⟩ := hleaf
      · exact ⟨used, htape, .parent hsome hcalls⟩
      · obtain ⟨a, rfl, rfl, hstate⟩ := createLeaf_eq_some.mp hleaf
        rw [logged_logged] at hstate
        refine ⟨used ++ [a], by rw [htape, List.append_assoc, List.singleton_append], ?_⟩
        by_cases hacc : Accepted a.ret
        · simp only [hacc, true_and] at hstate
          rw [hstate, decide_eq_true hacc]
          exact .made hsome hcalls hacc
        · simp only [hacc, false_and, if_false] at hstate
          rw [hstate, decide_eq_false hacc]
          exact .refused hsome hcalls hacc
  · rintro ⟨used, htape, hcreates⟩
    obtain ⟨s', rest⟩ := q
    dsimp only at htape hcreates
    apply behindParents_eq_some.mpr
    cases hcreates with
    | offline h => exact .inl ⟨h, rfl, Prod.ext rfl htape.symm⟩
    | @parent used ops h hcalls => exact .inr ⟨h, used, ops, rest, htape, .inl ⟨hcalls, rfl, rfl⟩⟩
    | @refused used ops a h hcalls ha =>
      rw [List.append_assoc, List.singleton_append] at htape
      refine .inr ⟨h, used, ops, a :: rest, htape, .inr ⟨hcalls, ?_⟩⟩
      refine createLeaf_eq_some.mpr ⟨a, rfl, (decide_eq_false ha).symm, ?_⟩
      simp only [ha, false_and, if_false, logged_logged]
      rfl
    | @made used ops a h hcalls ha =>
      rw [List.append_assoc, List.singleton_append] at htape
      refine .inr ⟨h, used, ops, a :: rest, htape, .inr ⟨hcalls, ?_⟩⟩
      refine createLeaf_eq_some.mpr ⟨a, rfl, (decide_eq_true ha).symm, ?_⟩
      simp only [ha, true_and, logged_logged]
      rfl

theorem delayed_of_eq_some (h : delayCreateEphemeralNode path p = some (ok, q)) :
    ∃ used, p.2 = used ++ q.2 ∧ Delayed path p.1 used ok q.1 := by
  obtain ⟨_, m, hset, hrest⟩ := bind_eq_some.mp h
  obtain rfl := update_eq_some.mp hset
  obtain ⟨hnone, rfl, rfl⟩ | ⟨hsome, used, ops, rest, htape, hleaf⟩ :=
    behindParents_eq_some.mp hrest
  · exact ⟨[], rfl, .offline hnone⟩
  · obtain ⟨hcalls, rfl, rfl⟩ | ⟨hcalls, hleaf⟩ := hleaf
    · exact ⟨used, htape, .parent hsome hcalls⟩
    · obtain ⟨a, rfl, hcases⟩ := delayCreateLeaf_cases hleaf
      rw [logged_logged] at hcases
      refine ⟨used ++ [a], by rw [htape, List.append_assoc, List.singleton_append], ?_⟩
      obtain ⟨hret, rfl, hstate⟩ | ⟨hret, rfl, hstate⟩ | ⟨hret, rfl, hstate⟩ := hcases
      · exact hstate ▸ .created hsome hcalls hret
      · exact hstate ▸ .existing hsome hcalls hret
      · exact hstate ▸ .refused hsome hcalls hret

theorem delayed_of_exec {s s' : ZookeeperClient} {answers : List Answer}
    (h : exec (delayCreateEphemeralNode path) s answers = some (ok, s')) :
    Delayed path s answers ok s' := by
  obtain ⟨used, htape, hdelayed⟩ := delayed_of_eq_some (exec_eq_some.mp h)
  rw [List.append_nil] at htape
  cases htape
  exact hdelayed

end Scripts

section Outcomes

variable {path : Bytes} {s s' : ZookeeperClient} {answers : List Answer} {ok : Bool}

/-- The loop comes to its end exactly when no answer is an error. -/
theorem Calls.ok_iff {zk : Option Nat} {paths : List Bytes} {ops : List Op}
    (h : Calls zk paths answers ops ok) :
    ok = true ↔ ∀ a ∈ answers, Accepted a.ret := by
  induction h with
  | done => simp
  | refused ha => simp [ha]
  | next ha hrest ih => simp [ha, ih]

theorem Delayed.ok_iff (h : Delayed path s answers ok s') :
    ok = true ↔ ∀ a ∈ answers, Accepted a.ret := by
  cases h with
  | offline h => simp
  | parent h hcalls => exact hcalls.ok_iff
  | refused h hcalls ha => simp [ha]
  | created h hcalls ha =>
    exact iff_of_true rfl
      (List.forall_mem_append.mpr ⟨hcalls.ok_iff.mp rfl, List.forall_mem_singleton.mpr (.inl ha)⟩)
  | existing h hcalls ha =>
    exact iff_of_true rfl
      (List.forall_mem_append.mpr ⟨hcalls.ok_iff.mp rfl, List.forall_mem_singleton.mpr (.inr ha)⟩)

/-- Whatever the server answers, the path has been taken down. -/
theorem Delayed.nodes (h : Delayed path s answers ok s') :
    s'.ephemeralNodes = s.ephemeralNodes.insert path := by
  cases h <;> rfl

/-- A method that fails takes nothing down. -/
theorem Creates.nodes {recursive : Bool} {flags : CreateNodeFlags}
    (h : Creates recursive path flags s answers false s') :
    s'.ephemeralNodes = s.ephemeralNodes := by
  cases h <;> rfl

end Outcomes

end Ucorf.ZookeeperCreates
