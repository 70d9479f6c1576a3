import Mathlib.Data.List.Induction
import Ucorf.ZookeeperCreates

/-!
# The tree of the server

A server that keeps a tree of nodes answers the creates of `CreateNode`. The loop goes
down the path, so that the parent of each node that it asks for is there when it does, and
after the last one the tree has the whole path.
-/
namespace Ucorf.ZookeeperTree

open Ucorf.Message
open Ucorf.Scripts
open Ucorf.Zookeeper
open Ucorf.ZookeeperUrl
open Ucorf.ZookeeperCreates

/-- The node above, which is `/` for a path of one component. -/
def parentOf (path : Bytes) : Bytes :=
  let above := (path.rdropWhile (· != slash)).dropLast
  if above = [] then [slash] else above

/-- `/c1/.../ck`. -/
def absolute (components : List Bytes) : Bytes := components.flatMap (slash :: ·)

/-- The paths of the components but the last, from the top. -/
def ancestors (components : List Bytes) : List Bytes :=
  (List.range (components.length - 1)).map fun i => absolute (components.take (i + 1))

abbrev Tree := List Bytes

structure AncestorClosed (tree : Tree) : Prop where
  root : [slash] ∈ tree
  parent : ∀ path ∈ tree, path ≠ [slash] → parentOf path ∈ tree

/-- `zoo_create` on the tree; a fault is an error that has nothing to do with it. -/
def serve (fault : Option Int) (tree : Tree) (path : Bytes) : Int × Tree :=
  match fault with
  | some e => (e, tree)
  | none =>
    if tree.contains path then (zNodeExists, tree)
    else if tree.contains (parentOf path) then (zOk, path :: tree)
    else (zNoNode, tree)

/-- The creates get the answers of the tree, with the fault `faults n` at number `n`. A
create in a sequence is not answered here, as it chooses the name of its node. -/
inductive Serves : (Nat → Option Int) → Tree → List Op → Tree → Prop where
  | nil (faults : Nat → Option Int) (tree : Tree) : Serves faults tree [] tree
  | cons {faults : Nat → Option Int} {tree tree' : Tree} {ops : List Op} (zh : Option Nat)
      (path : Bytes) (flags : Nat)
      (hflags : flags ≠ zooSequence)
      (h : Serves (fun n => faults (n + 1)) (serve (faults 0) tree path).2 ops tree') :
      Serves faults tree (.create zh path flags (serve (faults 0) tree path).1 :: ops) tree'

/-- The faults are errors, and none of them says that a parent is missing. -/
def Faulty (faults : Nat → Option Int) : Prop :=
  ∀ n e, faults n = some e → ¬ Accepted e ∧ e ≠ zNoNode

/-- The second tree has the paths `added` besides those of the first one. -/
def Grown (tree : Tree) (added : List Bytes) (tree' : Tree) : Prop :=
  ∀ path, path ∈ tree' ↔ path ∈ tree ∨ path ∈ added

/-- The parent of each path is in the tree or comes before it. -/
inductive Ladder : Tree → List Bytes → Prop where
  | nil (tree : Tree) : Ladder tree []
  | cons {tree : Tree} {path : Bytes} {rest : List Bytes} (h : parentOf path ∈ tree)
      (hrest : Ladder (path :: tree) rest) : Ladder tree (path :: rest)

section Paths

variable {components : List Bytes} {c x : Bytes}

theorem absolute_concat (components : List Bytes) (c : Bytes) :
    absolute (components ++ [c]) = absolute components ++ slash :: c := by
  simp [absolute]

theorem absolute_eq_nil : absolute components = [] ↔ components = [] := by
  cases components with
  | nil => simp [absolute]
  | cons c components => simp [absolute]

theorem parentOf_concat (hc : slash ∉ c) (x : Bytes) :
    parentOf (x ++ slash :: c) = if x = [] then [slash] else x := by
  rw [parentOf, rdropWhile_last hc, List.dropLast_concat]

/-- The positions of the slashes that the loop of the source stops at. -/
def stops (path : Bytes) : List Nat :=
  (List.range path.length).filter fun p => 1 ≤ p && path[p]? == some slash

theorem stops_concat (hc : slash ∉ c) (x : Bytes) :
    stops (x ++ slash :: c) = stops x ++ if x = [] then [] else [x.length] := by
  have hlen : (x ++ slash :: c).length = x.length + (c.length + 1) := by
    rw [List.length_append, List.length_cons]
  have hleft : ∀ p ∈ List.range x.length, (1 ≤ p && (x ++ slash :: c)[p]? == some slash) =
      (1 ≤ p && x[p]? == some slash) := by
    intro p hp
    rw [List.getElem?_append_left (List.mem_range.mp hp)]
  have hright : ∀ i ∈ List.range c.length, ¬ (1 ≤ x.length + (i + 1) &&
      (x ++ slash :: c)[x.length + (i + 1)]? == some slash) = true := by
    intro i hi hslash
    rw [Bool.and_eq_true, beq_iff_eq, List.getElem?_append_right (by omega)] at hslash
    exact hc (List.mem_of_getElem? (i := i) (by simpa using hslash.2))
  have hmid : (1 ≤ x.length && (x ++ slash :: c)[x.length]? == some slash) = decide (x ≠ []) := by
    simp [Nat.one_le_iff_ne_zero]
  rw [stops, hlen, List.range_add, List.filter_append, List.filter_congr hleft, ← stops,
    List.range_succ_eq_map, List.map_cons, Nat.add_zero, List.filter_cons, hmid, List.map_map,
    List.filter_map, List.filter_eq_nil_iff.mpr]
  · by_cases hx : x = [] <;> simp [hx]
  · exact hright

/-- One more component has one more parent. -/
theorem parents_concat (hc : slash ∉ c) (x : Bytes) :
    parents (x ++ slash :: c) = parents x ++ if x = [] then [] else [x] := by
  have htake : ∀ p ∈ stops x, (x ++ slash :: c).take p = x.take p := by
    intro p hp
    have hlt := List.mem_range.mp (List.mem_filter.mp hp).1
    exact List.take_append_of_le_length (Nat.le_of_lt hlt)
  have hparents : ∀ path, parents path = (stops path).map path.take := fun _ => rfl
  rw [hparents, stops_concat hc, List.map_append, List.map_congr_left htake, ← hparents]
  by_cases hx : x = []
  · simp [hx]
  · simp [hx]

theorem ancestors_concat (components : List Bytes) (c : Bytes) :
    ancestors (components ++ [c]) = ancestors components ++ if components = [] then []
      else [absolute components] := by
  by_cases hempty : components = []
  · simp [hempty, ancestors]
  · have hpos := List.length_pos_iff.mpr hempty
    obtain ⟨m, hm⟩ := Nat.exists_eq_add_of_le' hpos
    have htake : ∀ i < m + 1, (components ++ [c]).take (i + 1) = components.take (i + 1) := by
      intro i hi
      exact List.take_append_of_le_length (by omega)
    have hinit : (List.range m).map (fun i => absolute ((components ++ [c]).take (i + 1))) =
        (List.range m).map fun i => absolute (components.take (i + 1)) := by
      apply List.map_congr_left
      intro i hi
      rw [htake i (Nat.lt_succ_of_lt (List.mem_range.mp hi))]
    have hlast : components.take (m + 1) = components := List.take_of_length_le (Nat.le_of_eq hm)
    rw [if_neg hempty, ancestors, ancestors, List.length_append, hm]
    simp only [List.length_singleton, Nat.add_sub_cancel, List.range_succ, List.map_append,
      List.map_singleton, hinit, htake m (Nat.lt_succ_self m), hlast]

theorem parents_absolute (h : ∀ c ∈ components, slash ∉ c) :
    parents (absolute components) = ancestors components := by
  induction components using List.reverseRecOn with
  | nil => rfl
  | append_singleton components c ih =>
    have hinit : ∀ d ∈ components, slash ∉ d := fun d hd => h d (List.mem_append_left _ hd)
    rw [absolute_concat, parents_concat (h c (by simp)), ih hinit, ancestors_concat]
    simp only [absolute_eq_nil]

theorem Ladder.concat {tree : Tree} {paths : List Bytes} {path : Bytes} (h : Ladder tree paths)
    (hparent : parentOf path ∈ tree ∨ parentOf path ∈ paths) : Ladder tree (paths ++ [path]) := by
  induction h with
  | nil tree =>
    simp only [List.not_mem_nil, or_false] at hparent
    exact .cons hparent (.nil _)
  | @cons tree p rest hp hrest ih =>
    refine .cons hp (ih ?_)
    simp only [List.mem_cons] at hparent ⊢
    tauto

/-- Each path of an absolute one has its parent above it. -/
theorem ladder_absolute {tree : Tree} (hroot : [slash] ∈ tree) (hne : components ≠ [])
    (h : ∀ c ∈ components, slash ∉ c) :
    Ladder tree (ancestors components ++ [absolute components]) := by
  induction components using List.reverseRecOn with
  | nil => exact absurd rfl hne
  | append_singleton components c ih =>
    have hparent : parentOf (absolute (components ++ [c])) = if components = [] then [slash]
        else absolute components := by
      rw [absolute_concat, parentOf_concat (h c (by simp))]
      simp only [absolute_eq_nil]
    rw [ancestors_concat]
    by_cases hempty : components = []
    · subst hempty
      rw [if_pos rfl] at hparent
      refine Ladder.concat (Ladder.nil tree) (.inl ?_)
      rw [hparent]
      exact hroot
    · have hladder := ih hempty fun d hd => h d (List.mem_append_left _ hd)
      rw [if_neg hempty] at hparent ⊢
      refine hladder.concat (.inr ?_)
      rw [hparent]
      simp

end Paths

section Serving

variable {faults : Nat → Option Int} {tree tree' m : Tree} {path : Bytes} {ops ops' : List Op}

/-- Without a fault, the create of a node under a node of the tree is accepted and the node is
there. -/
theorem serve_free (hfree : faults 0 = none) (hparent : parentOf path ∈ tree) :
    Accepted (serve (faults 0) tree path).1 ∧ Grown tree [path] (serve (faults 0) tree path).2 := by
  rw [hfree]
  simp only [serve, List.contains_iff_mem]
  by_cases hpath : path ∈ tree
  · rw [if_pos hpath]
    refine ⟨.inr rfl, fun q => ?_⟩
    simp only [List.mem_singleton]
    constructor
    · exact .inl
    · rintro (hq | rfl)
      · exact hq
      · exact hpath
  · rw [if_neg hpath, if_pos hparent]
    refine ⟨.inl rfl, fun q => ?_⟩
    rw [List.mem_cons, List.mem_singleton]
    exact or_comm

theorem serve_fault {e : Int} (hfault : faults 0 = some e) :
    serve (faults 0) tree path = (e, tree) := by
  rw [hfault]
  rfl

theorem serve_closed (fault : Option Int) (htree : AncestorClosed tree) :
    AncestorClosed (serve fault tree path).2 := by
  cases fault with
  | some e => exact htree
  | none =>
    simp only [serve, List.contains_iff_mem]
    split
    · exact htree
    · split
      · rename_i hparent
        refine ⟨List.mem_cons_of_mem _ htree.root, fun q hq hne => ?_⟩
        rcases List.mem_cons.mp hq with rfl | hq
        · exact List.mem_cons_of_mem _ hparent
        · exact List.mem_cons_of_mem _ (htree.parent q hq hne)
      · exact htree

theorem Serves.closed (h : Serves faults tree ops tree') (htree : AncestorClosed tree) :
    AncestorClosed tree' := by
  induction h with
  | nil => exact htree
  | cons zh path flags hflags h ih => exact ih (serve_closed _ htree)

theorem Serves.append (h : Serves faults tree ops m)
    (h' : Serves (fun n => faults (n + ops.length)) m ops' tree') :
    Serves faults tree (ops ++ ops') tree' := by
  induction h with
  | nil => exact h'
  | cons zh path flags hflags h ih =>
    refine .cons zh path flags hflags (ih ?_)
    simpa [Nat.add_assoc, Nat.add_comm 1] using h'

theorem Serves.split (h : Serves faults tree (ops ++ ops') tree') :
    ∃ m, Serves faults tree ops m ∧ Serves (fun n => faults (n + ops.length)) m ops' tree' := by
  induction ops generalizing faults tree with
  | nil => exact ⟨tree, .nil _ _, h⟩
  | cons op ops ih =>
    cases h with
    | cons zh path flags hflags h =>
      obtain ⟨m, hleft, hright⟩ := ih h
      refine ⟨m, .cons zh path flags hflags hleft, ?_⟩
      simpa [Nat.add_assoc, Nat.add_comm 1] using hright

theorem Grown.append {added more : List Bytes} (h : Grown tree added m) (h' : Grown m more tree') :
    Grown tree (added ++ more) tree' := by
  intro q
  rw [h' q, h q, List.mem_append, or_assoc]

/-- A node that the list has not taken down yet is under the tree that it leads to. -/
theorem Ladder.split {paths : List Bytes} (h : Ladder tree (paths ++ [path])) :
    Ladder tree paths ∧ (parentOf path ∈ tree ∨ parentOf path ∈ paths) := by
  induction paths generalizing tree with
  | nil =>
    cases h with
    | cons hparent hrest => exact ⟨.nil tree, .inl hparent⟩
  | cons p paths ih =>
    cases h with
    | cons hparent hrest =>
      obtain ⟨hpaths, hpath⟩ := ih hrest
      refine ⟨.cons hparent hpaths, ?_⟩
      simp only [List.mem_cons] at hpath ⊢
      tauto

theorem Ladder.mono {paths : List Bytes} (h : Ladder tree paths) (hle : ∀ p ∈ tree, p ∈ tree') :
    Ladder tree' paths := by
  induction h generalizing tree' with
  | nil => exact .nil _
  | cons hp hrest ih =>
    refine .cons (hle _ hp) (ih fun q hq => ?_)
    rcases List.mem_cons.mp hq with rfl | hq
    · exact List.mem_cons_self
    · exact List.mem_cons_of_mem _ (hle q hq)

theorem Serves.cons_inv {zh : Option Nat} {flags : Nat} {ret : Int}
    (h : Serves faults tree (.create zh path flags ret :: ops) tree') :
    ret = (serve (faults 0) tree path).1 ∧
    Serves (fun n => faults (n + 1)) (serve (faults 0) tree path).2 ops tree' := by
  cases h with
  | cons _ _ _ _ h => exact ⟨rfl, h⟩

theorem Faulty.shift (hf : Faulty faults) (k : Nat) :
    Faulty fun n => faults (n + k) := fun n => hf (n + k)

theorem serve_not_noNode (hf : Faulty faults) (hparent : parentOf path ∈ tree) :
    (serve (faults 0) tree path).1 ≠ zNoNode := by
  by_cases hfree : faults 0 = none
  · intro hret
    have hacc := (serve_free hfree hparent).1
    rw [hret] at hacc
    exact absurd hacc (by decide)
  · obtain ⟨e, he⟩ := Option.ne_none_iff_exists'.mp hfree
    rw [serve_fault he]
    exact (hf 0 e he).2

end Serving

/-- No create is answered that its parent is missing. -/
def NoMissing (ops : List Op) : Prop := ∀ zh path flags, Op.create zh path flags zNoNode ∉ ops

/-- What the loop makes of the tree: all of its paths, or those before the fault. -/
inductive Built (faults : Nat → Option Int) (tree tree' : Tree) (paths : List Bytes)
    (ops : List Op) : Bool → Prop where
  | whole (hlen : ops.length = paths.length) (hfree : ∀ n < ops.length, faults n = none)
      (h : Grown tree paths tree') : Built faults tree tree' paths ops true
  | part (j : Nat) (hj : j < paths.length) (hfault : ∃ n < ops.length, faults n ≠ none)
      (h : Grown tree (paths.take j) tree') : Built faults tree tree' paths ops false

theorem noMissing_nil : NoMissing [] := by
  intro zh path flags hmem
  cases hmem

theorem NoMissing.cons {zh : Option Nat} {path : Bytes} {flags : Nat} {ret : Int} {ops : List Op}
    (hret : ret ≠ zNoNode)
    (h : NoMissing ops) : NoMissing (.create zh path flags ret :: ops) := by
  intro zh' path' flags' hmem
  rcases List.mem_cons.mp hmem with hop | hmem
  · cases hop
    exact hret rfl
  · exact h zh' path' flags' hmem

theorem NoMissing.append {ops ops' : List Op} (h : NoMissing ops) (h' : NoMissing ops') :
    NoMissing (ops ++ ops') := by
  intro zh path flags hmem
  rcases List.mem_append.mp hmem with hmem | hmem
  · exact h zh path flags hmem
  · exact h' zh path flags hmem

section Loop

variable {faults : Nat → Option Int} {tree tree' m : Tree} {zk : Option Nat}
    {path : Bytes} {paths : List Bytes}
  {used : List Answer} {ops : List Op} {ok : Bool}

theorem Built.append {rest : List Bytes} {ops' : List Op} (h : Built faults tree m paths ops true)
    (h' : Built (fun n => faults (n + ops.length)) m tree' rest ops' ok) :
    Built faults tree tree' (paths ++ rest) (ops ++ ops') ok := by
  cases h with
  | whole hlen hfree hgrown =>
    cases h' with
    | whole hlen' hfree' hgrown' =>
      refine .whole (by simp [hlen, hlen']) (fun n hn => ?_) (hgrown.append hgrown')
      by_cases hlt : n < ops.length
      · exact hfree n hlt
      · rw [List.length_append] at hn
        have hrest := hfree' (n - ops.length) (by omega)
        rwa [Nat.sub_add_cancel (Nat.not_lt.mp hlt)] at hrest
    | part j hj hfault hgrown' =>
      obtain ⟨n, hn, hne⟩ := hfault
      have hlt : n + ops.length < (ops ++ ops').length := by
        rw [List.length_append]
        omega
      refine .part (paths.length + j) (by simpa using hj) ⟨n + ops.length, hlt, hne⟩ ?_
      rw [List.take_length_add_append]
      exact hgrown.append hgrown'

/-- After an error nothing more is asked for. -/
theorem Built.stop (rest : List Bytes) (h : Built faults tree tree' paths ops false) :
    Built faults tree tree' (paths ++ rest) ops false := by
  cases h with
  | part j hj hfault hgrown =>
    refine .part j (by simpa using Nat.lt_add_right _ hj) hfault ?_
    rwa [List.take_append_of_le_length (Nat.le_of_lt hj)]

/-- One create under a node of the tree. -/
theorem created_built {zh : Option Nat} {flags : Nat} {ret : Int} (hf : Faulty faults)
    (hparent : parentOf path ∈ tree)
    (hs : Serves faults tree [.create zh path flags ret] tree') :
    Built faults tree tree' [path] [.create zh path flags ret] (decide (Accepted ret)) ∧
      NoMissing [.create zh path flags ret] := by
  obtain ⟨rfl, hrest⟩ := hs.cons_inv
  cases hrest
  refine ⟨?_, noMissing_nil.cons (serve_not_noNode hf hparent)⟩
  by_cases hfree : faults 0 = none
  · have hserve := serve_free hfree hparent
    rw [decide_eq_true hserve.1]
    refine .whole rfl (fun n hn => ?_) hserve.2
    rw [Nat.lt_one_iff.mp hn]
    exact hfree
  · obtain ⟨e, he⟩ := Option.ne_none_iff_exists'.mp hfree
    rw [serve_fault he, decide_eq_false (hf 0 e he).1]
    exact .part 0 Nat.zero_lt_one ⟨0, Nat.zero_lt_one, hfree⟩ fun q => by simp

theorem calls_built (hcalls : Calls zk paths used ops ok) (hf : Faulty faults)
    (hs : Serves faults tree ops tree')
    (hl : Ladder tree paths) : Built faults tree tree' paths ops ok ∧ NoMissing ops := by
  induction hcalls generalizing faults tree with
  | done =>
    cases hs
    exact ⟨.whole rfl (by simp) fun q => by simp, noMissing_nil⟩
  | refused h =>
    cases hl with
    | cons hparent hladder =>
      obtain ⟨hbuilt, hmissing⟩ := created_built hf hparent hs
      rw [decide_eq_false h] at hbuilt
      exact ⟨hbuilt.stop _, hmissing⟩
  | @next parent rest a used ops ok h hrest ih =>
    cases hl with
    | cons hparent hladder =>
      have hcons : Serves faults tree ([.create zk parent 0 a.ret] ++ ops) tree' := hs
      obtain ⟨m, hfirst, hs⟩ := hcons.split
      obtain ⟨hbuilt, hmissing⟩ := created_built hf hparent hfirst
      rw [decide_eq_true h] at hbuilt
      have hmono : ∀ p ∈ parent :: tree, p ∈ m := by
        intro p hp
        cases hbuilt with
        | whole hlen hfree hgrown =>
          rw [hgrown p, List.mem_singleton]
          exact (List.mem_cons.mp hp).symm
      obtain ⟨hbuilt', hmissing'⟩ := ih (hf.shift 1) hs (hladder.mono hmono)
      exact ⟨hbuilt.append hbuilt', hmissing.append hmissing'⟩

/-- Whatever the faults are, the loop comes to an end. -/
theorem calls_exist (zk : Option Nat) (paths : List Bytes) (faults : Nat → Option Int)
    (tree : Tree) :
    ∃ used ops ok tree', Calls zk paths used ops ok ∧ Serves faults tree ops tree' := by
  induction paths generalizing faults tree with
  | nil => exact ⟨[], [], true, tree, .done, .nil _ _⟩
  | cons path rest ih =>
    by_cases h : Accepted (serve (faults 0) tree path).1
    · obtain ⟨used, ops, ok, tree', hcalls, hs⟩ := ih (fun n => faults (n + 1))
        (serve (faults 0) tree path).2
      exact ⟨_, _, ok, tree', .next (a := ⟨(serve (faults 0) tree path).1, []⟩) h hcalls,
        .cons zk path 0 (by decide) hs⟩
    · exact ⟨_, _, false, _, .refused (a := ⟨(serve (faults 0) tree path).1, []⟩) h,
        .cons zk path 0 (by decide) (.nil _ _)⟩

end Loop

section Methods

variable {faults : Nat → Option Int} {tree tree' : Tree} {path : Bytes} {flags : CreateNodeFlags}
    {s s' : ZookeeperClient}
  {used : List Answer} {ops : List Op} {ok : Bool}

/-- The node itself comes after the whole loop. -/
theorem leaf_built {zk : Option Nat} {paths : List Bytes} {n : Nat} {ret : Int}
    (hcalls : Calls zk paths used ops true)
    (hf : Faulty faults) (hs : Serves faults tree (ops ++ [.create zk path n ret]) tree')
    (hl : Ladder tree (paths ++ [path])) :
    Built faults tree tree' (paths ++ [path]) (ops ++ [.create zk path n ret])
      (decide (Accepted ret)) ∧
      NoMissing (ops ++ [.create zk path n ret]) := by
  obtain ⟨m, hloop, hleaf⟩ := hs.split
  obtain ⟨hladder, hparent⟩ := hl.split
  obtain ⟨hbuilt, hmissing⟩ := calls_built hcalls hf hloop hladder
  have hparent' : parentOf path ∈ m := by
    cases hbuilt with
    | whole hlen hfree hgrown => exact (hgrown _).mpr hparent
  obtain ⟨hbuilt', hmissing'⟩ := created_built (hf.shift ops.length) hparent' hleaf
  exact ⟨hbuilt.append hbuilt', hmissing.append hmissing'⟩

/-- The loop and the create after it, as one list of paths. -/
theorem creates_built (hcreates : Creates true path flags s used ok s') (hzk : s.zk ≠ none)
    (hlog : s'.log = s.log ++ ops)
    (hf : Faulty faults) (hs : Serves faults tree ops tree')
    (hl : Ladder tree (parents path ++ [path])) :
    Built faults tree tree' (parents path ++ [path]) ops ok ∧ NoMissing ops := by
  cases hcreates with
  | offline h => exact absurd h hzk
  | parent h hcalls =>
    obtain rfl := List.append_cancel_left hlog
    obtain ⟨hbuilt, hmissing⟩ := calls_built hcalls hf hs hl.split.1
    exact ⟨hbuilt.stop _, hmissing⟩
  | refused h hcalls ha =>
    obtain rfl := List.append_cancel_left hlog
    have hleaf := leaf_built hcalls hf hs hl
    rwa [decide_eq_false ha] at hleaf
  | @made used ops' a h hcalls ha =>
    have hops : s.log ++ (ops' ++ [.create s.zk path (createFlags flags) a.ret]) =
        s.log ++ ops := by
      rw [← hlog]
      dsimp only
      split <;> rfl
    obtain rfl := List.append_cancel_left hops
    have hleaf := leaf_built hcalls hf hs hl
    rwa [decide_eq_true ha] at hleaf

/-- Whatever the faults are, the method comes to its end. -/
theorem creates_exist (path : Bytes) (hflags : flags ≠ .sequence) (hzk : s.zk ≠ none)
    (faults : Nat → Option Int)
    (tree : Tree) :
    ∃ used ok s' ops tree', Creates true path flags s used ok s' ∧ s'.log = s.log ++ ops ∧
    Serves faults tree ops tree' := by
  obtain ⟨used, ops, done, m, hcalls, hs⟩ := calls_exist s.zk (parents path) faults tree
  cases done with
  | false => exact ⟨used, false, _, ops, m, .parent hzk hcalls, rfl, hs⟩
  | true =>
    have hsequence : createFlags flags ≠ zooSequence := by
      cases flags with
      | normal => decide
      | ephemeral => decide
      | sequence => exact absurd rfl hflags
    have hleaf := hs.append (.cons s.zk path (createFlags flags) hsequence (.nil _ _))
    by_cases ha : Accepted (serve (faults (0 + ops.length)) m path).1
    · refine ⟨_, true, _, _, _, .made (a := ⟨_, []⟩) hzk hcalls ha, ?_, hleaf⟩
      dsimp only
      split <;> rfl
    · exact ⟨_, false, _, _, _, .refused (a := ⟨_, []⟩) hzk hcalls ha, rfl, hleaf⟩

/-- On a tree, `CreateNode` with its parents comes to an end and is never told that a parent
is missing. Without a fault it has built the whole path; with one it reports the failure,
and the tree has only parents of the path more, from the top down. -/
theorem createNode_builds (components : List Bytes) (flags : CreateNodeFlags)
    (faults : Nat → Option Int) (tree : Tree)
    (s : ZookeeperClient) (hne : components ≠ []) (hc : ∀ c ∈ components, slash ∉ c)
    (hflags : flags ≠ .sequence)
    (hzk : s.zk ≠ none) (htree : AncestorClosed tree) (hf : Faulty faults) :
    (∃ answers ok s' ops tree',
      exec (createNode (absolute components) flags true) s answers = some (ok, s') ∧
      s'.log = s.log ++ ops ∧ Serves faults tree ops tree') ∧
    ∀ answers ok s' ops tree', exec (createNode (absolute components) flags true)
      s answers = some (ok, s') →
      s'.log = s.log ++ ops → Serves faults tree ops tree' →
      NoMissing ops ∧ AncestorClosed tree' ∧
      ((∀ n < ops.length, faults n = none) → ok = true ∧
        Grown tree (ancestors components ++ [absolute components]) tree') ∧
      ((∃ n < ops.length, faults n ≠ none) → ok = false ∧ s'.ephemeralNodes = s.ephemeralNodes ∧
        ∃ j ≤ (ancestors components).length, Grown tree ((ancestors components).take j) tree') := by
  constructor
  · obtain ⟨used, ok, s', ops, tree', hcreates, hlog, hs⟩ :=
      creates_exist (absolute components) hflags hzk faults tree
    have hrun := createNode_eq_some (p := (s, used)) (q := (s', [])).mpr ⟨used, by simp, hcreates⟩
    exact ⟨used, ok, s', ops, tree', exec_eq_some.mpr hrun, hlog, hs⟩
  · intro answers ok s' ops tree' hrun hlog hs
    obtain ⟨used, -, hcreates⟩ := createNode_eq_some.mp (exec_eq_some.mp hrun)
    have hladder : Ladder tree (parents (absolute components) ++ [absolute components]) := by
      rw [parents_absolute hc]
      exact ladder_absolute htree.root hne hc
    obtain ⟨hbuilt, hmissing⟩ := creates_built hcreates hzk hlog hf hs hladder
    rw [parents_absolute hc] at hbuilt
    refine ⟨hmissing, hs.closed htree, ?_⟩
    cases hbuilt with
    | whole hlen hfree hgrown =>
      refine ⟨fun _ => ⟨rfl, hgrown⟩, ?_⟩
      rintro ⟨n, hn, hfault⟩
      exact absurd (hfree n hn) hfault
    | part j hj hfault hgrown =>
      obtain ⟨n, hn, hne⟩ := hfault
      rw [List.length_append, List.length_singleton, Nat.lt_succ_iff] at hj
      rw [List.take_append_of_le_length hj] at hgrown
      exact ⟨fun hfree => absurd (hfree n hn) hne, fun _ => ⟨rfl, hcreates.nodes, j, hj, hgrown⟩⟩

/-- `/a` is there and `/a/b` is not. -/
theorem createNode_builds_leaf :
    Grown [[slash], [slash, 97]] [[slash, 97], [slash, 97, slash, 98]]
      [[slash, 97, slash, 98], [slash], [slash, 97]] := by
  have htree : AncestorClosed [[slash], [slash, 97]] := ⟨by decide, by decide⟩
  have hserves : Serves (fun _ => none) [[slash], [slash, 97]]
      [.create (some 0) [slash, 97] 0 zNodeExists, .create (some 0) [slash, 97, slash, 98] 0 zOk]
      [[slash, 97, slash, 98], [slash], [slash, 97]] :=
    .cons _ _ 0 (by decide) (.cons _ _ 0 (by decide) (.nil _ _))
  have hbuilds := createNode_builds [[97], [98]] .normal (fun _ => none) [[slash], [slash, 97]]
    { ZookeeperClient.init with zk := some 0 } (by decide) (by decide) (by decide)
      (by decide) htree (fun _ _ h => by cases h)
  have hrun := hbuilds.2 [⟨zNodeExists, []⟩, ⟨zOk, []⟩] true _ _ _ rfl rfl hserves
  exact (hrun.2.2.1 fun _ _ => rfl).2

end Methods

end Ucorf.ZookeeperTree
