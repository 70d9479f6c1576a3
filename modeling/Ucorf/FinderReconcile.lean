import Mathlib.Data.List.Nodup
import Ucorf.FinderConnections

/-!
# What a children notification leaves

The loop of `OnZookeeperChilds` swaps the transport of a url back and forth when the url
comes up more than once, and makes one transport each time it does not find the url. A
node name with a colon has a url of its own, and all names without one have the empty url.
-/
namespace Ucorf.FinderReconcile

open Ucorf.Message
open Ucorf.Threads
open Ucorf.ZookeeperUrl
open Ucorf.Finder
open Ucorf.FinderSections
open Ucorf.FinderConnections

section Urls

/-- How often the url comes up among the nodes. -/
def times (nodes : List Bytes) (url : Bytes) : Nat :=
  nodes.countP fun node => zookeeperNode2Url node = url

/-- The names without a colon. -/
def nameless (nodes : List Bytes) : Nat := nodes.countP fun node => colon ∉ node

theorem times_nil (nodes : List Bytes) : times nodes [] = nameless nodes := by
  apply List.countP_congr
  intro node _
  simp [url_eq_nil]

theorem times_pos {nodes : List Bytes} {url : Bytes} :
    0 < times nodes url ↔ url ∈ nodes.map zookeeperNode2Url := by
  rw [times, List.countP_pos_iff, List.mem_map]
  simp

/-- Among distinct names every other url comes up once at most. -/
theorem times_le_one {nodes : List Bytes} (h : nodes.Nodup) {url : Bytes} (hurl : url ≠ []) :
    times nodes url ≤ 1 := by
  induction nodes with
  | nil => exact Nat.zero_le _
  | cons node nodes ih =>
    obtain ⟨hnot, hnodup⟩ := List.nodup_cons.mp h
    have hle := ih hnodup
    rw [times, List.countP_cons]
    by_cases hnode : zookeeperNode2Url node = url
    · have hcolon : colon ∈ node := by
        by_contra hmem
        exact hurl (hnode.symm.trans (url_eq_nil.mpr hmem))
      have hzero : nodes.countP (fun node => zookeeperNode2Url node = url) = 0 := by
        rw [List.countP_eq_zero]
        intro other hother hsame
        have heq := url_injective hcolon (hnode.trans (of_decide_eq_true hsame).symm)
        exact hnot (heq ▸ hother)
      rw [hzero]
      split <;> omega
    · have hfalse : ¬ decide (zookeeperNode2Url node = url) = true := by simpa using hnode
      rw [if_neg hfalse]
      exact hle

theorem times_concat (nodes : List Bytes) (node url : Bytes) :
    times (nodes ++ [node]) url = times nodes url + if zookeeperNode2Url node =
      url then 1 else 0 := by
  rw [times, List.countP_append, List.countP_singleton]
  simp [times]

end Urls

section Loop

/-- An attempt to connect for the url. -/
def attempts (url : Bytes) : Thread → Bool
  | .retry _ u _ => u = url
  | _ => false

/-- The loop after some nodes, url by url. -/
structure Looped (s : ServerFinder) (nodes : List Bytes) (r : Reconcile) : Prop where
  made : ∃ fresh : List Transport, r.finder.tps = s.tps ++ fresh ∧ (∀ t ∈ fresh, t.shutdowns = 0) ∧
    ∀ url, fresh.countP (fun t => t.url = url) = if url ∈ s.transports then 0 else times nodes url
  started : ∀ url, r.started.countP (attempts url) = if url ∈ s.transports
    then 0 else times nodes url
  absent : ∀ url : Bytes, s.transports[url]? = none → r.finder.transports[url]? = none ∧
    (times nodes url = 0 → r.group[url]? = none) ∧
    (0 < times nodes url → ∃ tp x, r.group[url]? = some (some tp) ∧ s.tps.length ≤ tp ∧
      r.finder.tps[tp]? = some x ∧
      x.url = url ∧ .retry tp url .connecting ∈ r.started)
  present : ∀ (url : Bytes) (v : Option Nat), s.transports[url]? = some v →
    (times nodes url = 0 → r.group[url]? = none ∧ r.finder.transports[url]? = some v) ∧
    (times nodes url % 2 = 1 → r.group[url]? = some v ∧ r.finder.transports[url]? = some none) ∧
    (0 < times nodes url → times nodes url % 2 = 0 → r.group[url]? = some none ∧
      r.finder.transports[url]? = some v)

theorem looped_nil (s : ServerFinder) : Looped s [] ⟨s, ∅, []⟩ where
  made := ⟨[], by simp, by simp, by simp [times]⟩
  started := by simp [times]
  absent := by simp [times]
  present := by simp [times]

theorem mem_transports {g : TransportGroup} {url : Bytes} : url ∈ g ↔ g[url]? ≠ none := by
  rw [Std.ExtTreeMap.mem_iff_isSome_getElem?, Option.isSome_iff_ne_none]

/-- The url is one of `transports_` exactly when the loop finds it there. -/
theorem Looped.found_iff {s : ServerFinder} {nodes : List Bytes} {r : Reconcile}
    (h : Looped s nodes r)
    (url : Bytes) :
    r.finder.transports[url]? = none ↔ s.transports[url]? = none := by
  constructor
  · intro hnone
    cases hs : s.transports[url]? with
    | none => rfl
    | some v =>
      obtain ⟨hzero, hodd, heven⟩ := h.present url v hs
      by_cases h0 : times nodes url = 0
      · rw [(hzero h0).2] at hnone
        cases hnone
      · obtain hmod | hmod := Nat.mod_two_eq_zero_or_one (times nodes url)
        · rw [(heven (by omega) hmod).2] at hnone
          cases hnone
        · rw [(hodd hmod).2] at hnone
          cases hnone
  · intro hs
    exact (h.absent url hs).1

section Node

variable {s : ServerFinder} {nodes : List Bytes} {node : Bytes} {r : Reconcile}

/-- A url of `transports_` changes hands between the two groups. -/
theorem looped_swap (h : Looped s nodes r) {old : Option Nat}
    (hold : r.finder.transports[zookeeperNode2Url node]? = some old) :
    Looped s (nodes ++ [node])
      { r with
        finder := { r.finder with
          transports := r.finder.transports.insert (zookeeperNode2Url node)
            (r.group[zookeeperNode2Url node]?.getD none) }
        group := r.group.insert (zookeeperNode2Url node) old } := by
  generalize hhere : zookeeperNode2Url node = here at *
  have hin : here ∈ s.transports := by
    apply mem_transports.mpr
    intro hnone
    rw [(h.found_iff here).mpr hnone] at hold
    cases hold
  have htimes : ∀ url : Bytes, times (nodes ++ [node]) url =
      times nodes url + if here = url then 1 else 0 := by
    intro url
    rw [times_concat, hhere]
  have hcount : ∀ url : Bytes, (if url ∈ s.transports then 0 else times (nodes ++ [node]) url) =
      if url ∈ s.transports then 0 else times nodes url := by
    intro url
    by_cases hurl : url ∈ s.transports
    · rw [if_pos hurl, if_pos hurl]
    · have hne : here ≠ url := fun he => hurl (he ▸ hin)
      rw [if_neg hurl, if_neg hurl, htimes, if_neg hne, Nat.add_zero]
  constructor
  · obtain ⟨fresh, htps, hzero, hfresh⟩ := h.made
    refine ⟨fresh, htps, hzero, ?_⟩
    intro url
    rw [hcount, hfresh]
  · intro url
    rw [hcount, h.started]
  · intro url hs
    have hne : here ≠ url := by
      rintro rfl
      exact mem_transports.mp hin hs
    simp only [getElem?_insert, htimes, if_neg hne, Nat.add_zero]
    exact h.absent url hs
  · intro url v hs
    by_cases hne : here = url
    · subst hne
      obtain ⟨hzero, hodd, heven⟩ := h.present here v hs
      simp only [getElem?_insert, htimes, if_true]
      by_cases h0 : times nodes here = 0
      · obtain ⟨hgroup, hfinder⟩ := hzero h0
        rw [hfinder] at hold
        cases hold
        rw [hgroup]
        refine ⟨fun hbad => by omega, fun _ => ⟨rfl, rfl⟩, fun _ hbad => by omega⟩
      · obtain hmod | hmod := Nat.mod_two_eq_zero_or_one (times nodes here)
        · obtain ⟨hgroup, hfinder⟩ := heven (by omega) hmod
          rw [hfinder] at hold
          cases hold
          rw [hgroup]
          refine ⟨fun hbad => by omega, fun _ => ⟨rfl, rfl⟩, fun _ hbad => by omega⟩
        · obtain ⟨hgroup, hfinder⟩ := hodd hmod
          rw [hfinder] at hold
          cases hold
          rw [hgroup]
          refine ⟨fun hbad => by omega, fun hbad => by omega, fun _ _ => ⟨rfl, rfl⟩⟩
    · simp only [getElem?_insert, htimes, if_neg hne, Nat.add_zero]
      exact h.present url v hs

/-- A url that is not in `transports_` gets a transport, and an attempt for it. -/
theorem looped_make (h : Looped s nodes r)
    (hold : r.finder.transports[zookeeperNode2Url node]? = none) :
    Looped s (nodes ++ [node])
      { finder := { r.finder with tps := r.finder.tps ++ [⟨zookeeperNode2Url node, false, 0⟩] }
        group := r.group.insert (zookeeperNode2Url node) (some r.finder.tps.length)
        started := r.started ++
          [.retry r.finder.tps.length (zookeeperNode2Url node) .connecting] } := by
  generalize hhere : zookeeperNode2Url node = here at *
  have hout : here ∉ s.transports := fun hin => mem_transports.mp hin ((h.found_iff here).mp hold)
  have htimes : ∀ url : Bytes, times (nodes ++ [node]) url =
      times nodes url + if here = url then 1 else 0 := by
    intro url
    rw [times_concat, hhere]
  have hcount : ∀ url : Bytes, (if url ∈ s.transports then 0 else times (nodes ++ [node]) url) =
      (if url ∈ s.transports then 0 else times nodes url) + if here = url then 1 else 0 := by
    intro url
    by_cases hurl : url ∈ s.transports
    · have hne : here ≠ url := fun he => hout (he ▸ hurl)
      rw [if_pos hurl, if_pos hurl, if_neg hne]
    · rw [if_neg hurl, if_neg hurl, htimes]
  obtain ⟨fresh, htps, hzero, hfresh⟩ := h.made
  constructor
  · refine ⟨fresh ++ [⟨here, false, 0⟩], by rw [htps, List.append_assoc], ?_, ?_⟩
    · intro t ht
      obtain ht | ht := List.mem_append.mp ht
      · exact hzero t ht
      · rw [List.mem_singleton.mp ht]
    · intro url
      rw [List.countP_append, hfresh, List.countP_singleton, hcount]
      simp
  · intro url
    rw [List.countP_append, h.started, List.countP_singleton, hcount]
    simp [attempts]
  · intro url hs
    obtain ⟨hnone, hzero', hpos⟩ := h.absent url hs
    by_cases hne : here = url
    · subst hne
      simp only [getElem?_insert, htimes, if_true]
      refine ⟨hnone, fun hbad => by omega, fun _ =>
        ⟨r.finder.tps.length, ⟨here, false, 0⟩, rfl, ?_, ?_, rfl, ?_⟩⟩
      · rw [htps, List.length_append]
        exact Nat.le_add_right _ _
      · exact List.getElem?_concat_length
      · exact List.mem_append_right _ (List.mem_singleton_self _)
    · simp only [getElem?_insert, htimes, if_neg hne, Nat.add_zero]
      refine ⟨hnone, hzero', fun h0 => ?_⟩
      obtain ⟨tp, x, hgroup, hnew, hx, hurl, hmem⟩ := hpos h0
      obtain ⟨hlt, -⟩ := List.getElem?_eq_some_iff.mp hx
      refine ⟨tp, x, hgroup, hnew, ?_, hurl, List.mem_append_left _ hmem⟩
      rw [List.getElem?_append_left hlt, hx]
  · intro url v hs
    have hne : here ≠ url := by
      rintro rfl
      rw [Std.ExtTreeMap.getElem?_eq_none hout] at hs
      cases hs
    simp only [getElem?_insert, htimes, if_neg hne, Nat.add_zero]
    exact h.present url v hs

theorem looped_node (h : Looped s nodes r) (node : Bytes) :
    Looped s (nodes ++ [node]) (onNode r node) := by
  unfold onNode
  dsimp only
  split
  · rename_i old hold
    exact looped_swap h hold
  · rename_i hold
    exact looped_make h hold

theorem looped (s : ServerFinder) (nodes : List Bytes) : Looped s nodes (reconcile s nodes) := by
  induction nodes using List.reverseRecOn with
  | nil => exact looped_nil s
  | append_singleton nodes node ih =>
    have hstep := looped_node ih node
    rwa [reconcile, List.foldl_append]

end Node

end Loop

section Window

/-- `transports_` stays, and of the transports only those of the list are shut down. -/
structure Keeps (s s' : ServerFinder) (shut : List Nat) : Prop where
  transports : s'.transports = s.transports
  length : s'.tps.length = s.tps.length
  tps : ∀ (k : Nat) (x : Transport), s.tps[k]? = some x →
    ∃ y, s'.tps[k]? = some y ∧ y.url = x.url ∧ y.shutdowns = x.shutdowns + shut.count k

theorem keeps_of_same {s s' : ServerFinder} (htransports : s'.transports = s.transports)
    (htps : s'.tps = s.tps) :
    Keeps s s' [] where
  transports := htransports
  length := by rw [htps]
  tps := by
    intro k x hx
    exact ⟨x, by rw [htps, hx], rfl, rfl⟩

theorem Keeps.trans {s s' s'' : ServerFinder} {shut shut' : List Nat} (h : Keeps s s' shut)
    (h' : Keeps s' s'' shut') :
    Keeps s s'' (shut ++ shut') where
  transports := h'.transports.trans h.transports
  length := h'.length.trans h.length
  tps := by
    intro k x hx
    obtain ⟨y, hy, hurl, hshut⟩ := h.tps k x hx
    obtain ⟨z, hz, hurl', hshut'⟩ := h'.tps k y hy
    exact ⟨z, hz, hurl'.trans hurl, by rw [hshut', hshut, List.count_append, Nat.add_assoc]⟩

theorem keeps_setTransport (s : ServerFinder) (tp : Nat) (shut : List Nat)
    {f : Transport → Transport}
    (hurl : ∀ x, (f x).url = x.url) (hself : ∀ x, (f x).shutdowns = x.shutdowns + shut.count tp)
    (hother : ∀ k, tp ≠ k → shut.count k = 0) : Keeps s (s.setTransport tp f) shut where
  transports := rfl
  length := List.length_modify ..
  tps := by
    intro k x hx
    by_cases hk : tp = k
    · subst hk
      exact ⟨f x, by simp [ServerFinder.setTransport, hx], hurl x, hself x⟩
    · refine ⟨x, by simp [ServerFinder.setTransport, hx, hk], rfl, ?_⟩
      rw [hother k hk, Nat.add_zero]

theorem keeps_shutdown (s : ServerFinder) (tp : Nat) : Keeps s (s.shutdown tp) [tp] := by
  apply keeps_setTransport
  · intro x
    rfl
  · intro x
    rw [List.count_singleton_self]
  · intro k hk
    exact List.count_eq_zero.mpr (by simpa using Ne.symm hk)

theorem keeps_connected (s : ServerFinder) (tp : Nat) : Keeps s (s.connected tp) [] := by
  have hset := keeps_setTransport s tp [] (f := fun t => { t with estab := true })
    (fun _ => rfl) (fun _ => rfl) fun _ _ => rfl
  exact hset.trans (keeps_of_same rfl rfl)

variable {s s' : ServerFinder} {self : Nat} {t t' : Thread} {new : List Thread} {a : Label}

/-- Only a notification changes `transports_` or shuts a transport down. -/
theorem keeps_section (h : Section s self t a s' t' new) : Keeps s s' [] ∨
    (∃ nodes tp tps, t = .childs nodes (.shutting (tp :: tps)) ∧
      t' = .childs nodes (.shutting tps) ∧
      Keeps s s' [tp]) ∨
    ∃ nodes, t = .childs nodes .holding ∧ s.token = true ∧ new = (reconcile s nodes).started ∧
      s' = { (reconcile s nodes).finder with transports := (reconcile s nodes).group } ∧
      t' = .childs nodes (.shutting (missing (reconcile s nodes).finder.transports)) := by
  cases h with
  | apply htoken => exact .inr (.inr ⟨_, rfl, htoken, rfl, rfl, rfl⟩)
  | shutdown => exact .inr (.inl ⟨_, _, _, rfl, rfl, keeps_shutdown s _⟩)
  | drop => exact .inl (keeps_setTransport s _ [] (fun _ => rfl) (fun _ => rfl) fun _ _ => rfl)
  | connected => exact .inl (keeps_connected s _)
  | reconnected => exact .inl (keeps_connected s _)
  | call => split <;> exact .inl (keeps_of_same rfl rfl)
  | _ => exact .inl (keeps_of_same rfl rfl)

/-- Every url but the empty one has a transport in `transports_`. -/
def Filled (s : ServerFinder) : Prop := ∀ url : Bytes, url ≠ [] → s.transports[url]? ≠ some none

/-- A list of distinct names leaves no other url without its transport. -/
theorem filled_reconcile {nodes : List Bytes} (hs : Filled s) (hnodes : nodes.Nodup) :
    Filled { (reconcile s nodes).finder with transports := (reconcile s nodes).group } := by
  intro url hurl hnull
  change (reconcile s nodes).group[url]? = some none at hnull
  have hloop := looped s nodes
  have hle := times_le_one hnodes hurl
  cases hold : s.transports[url]? with
  | none =>
    obtain ⟨-, hzero, hpos⟩ := hloop.absent url hold
    by_cases h0 : times nodes url = 0
    · rw [hzero h0] at hnull
      cases hnull
    · obtain ⟨tp, x, hgroup, -⟩ := hpos (Nat.pos_of_ne_zero h0)
      rw [hgroup] at hnull
      cases hnull
  | some v =>
    obtain ⟨hzero, hodd, -⟩ := hloop.present url v hold
    by_cases h0 : times nodes url = 0
    · rw [(hzero h0).1] at hnull
      cases hnull
    · rw [(hodd (by omega)).1] at hnull
      cases hnull
      exact hs url hurl hold

theorem filled_section (h : Section s self t a s' t' new) (hs : Filled s)
    (hnodes : ∀ nodes pc, t = .childs nodes pc → nodes.Nodup) : Filled s' := by
  obtain hkeeps | ⟨nodes, tp, tps, -, -, hkeeps⟩ | ⟨nodes, rfl, -, -, rfl, -⟩ := keeps_section h
  · intro url hurl
    rw [hkeeps.transports]
    exact hs url hurl
  · intro url hurl
    rw [hkeeps.transports]
    exact hs url hurl
  · exact filled_reconcile hs (hnodes nodes .holding rfl)

theorem shutting_section {nodes : List Bytes} {rest : List Nat}
    (h : Section s self (.childs nodes (.shutting rest)) a s' t' new) :
    (∃ tp tps, rest = tp :: tps ∧ a = .shutdown ∧ t' = .childs nodes (.shutting tps) ∧
      Keeps s s' [tp]) ∨
      (rest = [] ∧ a = .unlock ∧ t' = .childs nodes (.returned .applied) ∧ Keeps s s' []) := by
  cases h with
  | contended _ hc => cases hc
  | acquired _ hc => cases hc
  | dead _ hl => cases hl
  | released hr =>
    cases hr with
    | shut => exact .inr ⟨rfl, rfl, rfl, keeps_of_same rfl rfl⟩
  | shutdown => exact .inl ⟨_, _, rfl, rfl, rfl, keeps_shutdown s _⟩

theorem returned_section {nodes : List Bytes} {e : ChildsExit}
    (h : Section s self (.childs nodes (.returned e)) a s' t' new) :
    False := by
  cases h with
  | contended _ hc => cases hc
  | acquired _ hc => cases hc
  | dead _ hl => cases hl
  | released hr => cases hr

theorem childs_section {nodes : List Bytes} {pc : ChildsPc}
    (h : Section s self t a s' (.childs nodes pc) new) :
    ∃ pc₀, t = .childs nodes pc₀ := by
  cases h with
  | contended _ hc => cases hc; exact ⟨_, rfl⟩
  | acquired _ hc => cases hc; exact ⟨_, rfl⟩
  | dead _ hl => cases hl; exact ⟨_, rfl⟩
  | released hr => cases hr <;> exact ⟨_, rfl⟩
  | apply => exact ⟨_, rfl⟩
  | shutdown => exact ⟨_, rfl⟩

/-- Thread `i` is on its way through `gone`, and has shut down what it has passed. -/
def Closing (s₁ : ServerFinder) (i : Nat) (nodes : List Bytes) (gone : List Nat)
    (m : State) : Prop :=
  ∃ shut rest, gone = shut ++ rest ∧ m.threads[i]? = some (.childs nodes (.shutting rest)) ∧
    Keeps s₁ m.shared shut

variable {m m' : State} {act : Action Thread Label} {s₁ : ServerFinder}
    {i : Nat} {nodes : List Bytes}
  {gone : List Nat}

/-- The others do not get into the way of the thread that is inside. -/
theorem closing_step (he : Exclusive m) (hc : Closing s₁ i nodes gone m)
    (h : program.step m act = some m') :
    (Closing s₁ i nodes gone m' ∧ act ≠ .run i .unlock) ∨
      (m'.threads[i]? = some (.childs nodes (.returned .applied)) ∧ Keeps s₁ m'.shared gone) := by
  obtain ⟨shut, rest, rfl, hi, hkeeps⟩ := hc
  obtain ⟨hsame, hother⟩ | ⟨a, t', new, rfl, hn, hi'⟩ := thread_step h hi
  · left
    refine ⟨⟨shut, rest, rfl, hsame, ?_⟩, hother .unlock⟩
    cases act with
    | spawn u =>
      obtain ⟨-, rfl⟩ := step_spawn h
      exact hkeeps
    | run j a =>
      obtain ⟨t, shared, t', new, hj, hn, rfl⟩ := step_run h
      have hij : i ≠ j := by
        rintro rfl
        exact hother a rfl
      have hout := he.alone hi hj rfl hij
      obtain hkeeps' | ⟨ns, tp, tps, rfl, -⟩ | ⟨ns, rfl, -⟩ := keeps_section (next_section hn)
      · simpa using hkeeps.trans hkeeps'
      · cases hout
      · cases hout
  · obtain ⟨tp, tps, rfl, rfl, rfl, hkeeps'⟩ | ⟨rfl, rfl, rfl, hkeeps'⟩ :=
      shutting_section (next_section hn)
    · left
      refine ⟨⟨shut ++ [tp], tps, by simp, hi', hkeeps.trans hkeeps'⟩, ?_⟩
      intro he
      cases he
    · exact .inr ⟨hi', hkeeps.trans hkeeps'⟩

theorem returned_step (hi : m.threads[i]? = some (.childs nodes (.returned .applied)))
    (h : program.step m act = some m') :
    m'.threads[i]? = some (.childs nodes (.returned .applied)) ∧ act ≠ .run i .unlock := by
  obtain ⟨hsame, hother⟩ | ⟨a, t', new, -, hn, -⟩ := thread_step h hi
  · exact ⟨hsame, hother .unlock⟩
  · exact (returned_section (next_section hn)).elim

/-- Between the swap of the two groups and the unlock the transports of `gone` are shut
down, whatever the other threads do. -/
theorem closing_run {mid : List (Action Thread Label)} {s' : State} (he : Exclusive m)
    (hi : m.threads[i]? = some (.childs nodes (.shutting gone)))
    (h : run program.step m (mid ++ [.run i .unlock]) = some s') :
    Keeps m.shared s'.shared gone := by
  have hstart : Closing m.shared i nodes gone m := ⟨[], gone, rfl, hi, keeps_of_same rfl rfl⟩
  obtain ⟨m', hmid, hlast⟩ := run_snoc h
  obtain ⟨he', hc | hreturned⟩ : Exclusive m' ∧ (Closing m.shared i nodes gone m' ∨
      m'.threads[i]? = some (.childs nodes (.returned .applied))) := by
    refine run_invariant (I := fun x => Exclusive x ∧ (Closing m.shared i nodes gone x ∨
      x.threads[i]? = some (.childs nodes (.returned .applied)))) ⟨he, .inl hstart⟩ ?_ hmid
    rintro x act x' ⟨hx, hc | hreturned⟩ hstep
    · refine ⟨exclusive_step hx hstep, ?_⟩
      obtain ⟨hc', -⟩ | ⟨hreturned, -⟩ := closing_step hx hc hstep
      · exact .inl hc'
      · exact .inr hreturned
    · exact ⟨exclusive_step hx hstep, .inr (returned_step hreturned hstep).1⟩
  · obtain ⟨-, hne⟩ | ⟨-, hkeeps⟩ := closing_step he' hc hlast
    · exact absurd rfl hne
    · exact hkeeps
  · exact absurd rfl (returned_step hreturned hlast).2

end Window

section Filed

/-- A transport of the group is filed under its own url, and only the empty url can be
without one. -/
structure Filed (s : ServerFinder) : Prop where
  own : ∀ (url : Bytes) (tp : Nat), s.transports[url]? = some (some tp) → ∃ x, s.tps[tp]? = some x ∧
    x.url = url
  null : ∀ url : Bytes, s.transports[url]? = some none → url = []

theorem Filed.keeps {s s' : ServerFinder} {shut : List Nat} (hf : Filed s) (h : Keeps s s' shut) :
    Filed s' where
  own := by
    intro url tp hurl
    rw [h.transports] at hurl
    obtain ⟨x, hx, hxurl⟩ := hf.own url tp hurl
    obtain ⟨y, hy, hyurl, -⟩ := h.tps tp x hx
    exact ⟨y, hy, hyurl.trans hxurl⟩
  null := by
    intro url hurl
    rw [h.transports] at hurl
    exact hf.null url hurl

/-- What a notification leaves under a url. -/
theorem group_cases {s : ServerFinder} {nodes : List Bytes} {r : Reconcile} (h : Looped s nodes r)
    {url : Bytes} {v : Option Nat} (hv : r.group[url]? = some v) :
    (s.transports[url]? = some v ∧ times nodes url % 2 = 1) ∨
      (v = none ∧ 0 < times nodes url ∧ times nodes url % 2 = 0) ∨
      ∃ tp x, s.transports[url]? = none ∧ v = some tp ∧ r.finder.tps[tp]? = some x ∧
    x.url = url := by
  cases hs : s.transports[url]? with
  | none =>
    obtain ⟨-, hzero, hpos⟩ := h.absent url hs
    obtain h0 | h0 := Nat.eq_zero_or_pos (times nodes url)
    · rw [hzero h0] at hv
      cases hv
    · obtain ⟨tp, x, hgroup, -, hx, hurl, -⟩ := hpos h0
      rw [hgroup] at hv
      cases hv
      exact .inr (.inr ⟨tp, x, rfl, rfl, hx, hurl⟩)
  | some w =>
    obtain ⟨hzero, hodd, heven⟩ := h.present url w hs
    obtain h0 | h0 := Nat.eq_zero_or_pos (times nodes url)
    · rw [(hzero h0).1] at hv
      cases hv
    · obtain hmod | hmod := Nat.mod_two_eq_zero_or_one (times nodes url)
      · rw [(heven h0 hmod).1] at hv
        cases hv
        exact .inr (.inl ⟨rfl, h0, hmod⟩)
      · rw [(hodd hmod).1] at hv
        cases hv
        exact .inl ⟨rfl, hmod⟩

theorem filed_reconcile {s : ServerFinder} {nodes : List Bytes} (hf : Filed s)
    (hnodup : nodes.Nodup) :
    Filed { (reconcile s nodes).finder with transports := (reconcile s nodes).group } where
  own := by
    intro url tp hurl
    have hlooped := looped s nodes
    obtain ⟨hs, -⟩ | ⟨hnone, -⟩ | ⟨tp', x, -, hsome, hx, hxurl⟩ := group_cases hlooped hurl
    · obtain ⟨x, hx, hxurl⟩ := hf.own url tp hs
      obtain ⟨hlt, -⟩ := List.getElem?_eq_some_iff.mp hx
      obtain ⟨fresh, htps, -⟩ := hlooped.made
      refine ⟨x, ?_, hxurl⟩
      dsimp only
      rw [htps, List.getElem?_append_left hlt, hx]
    · cases hnone
    · cases hsome
      exact ⟨x, hx, hxurl⟩
  null := by
    intro url hurl
    obtain ⟨hs, -⟩ | ⟨-, hpos, heven⟩ | ⟨tp, x, -, hsome, -⟩ := group_cases (looped s nodes) hurl
    · exact hf.null url hs
    · by_contra hne
      have hle := times_le_one hnodup hne
      omega
    · cases hsome

theorem filed_start (onDisconnect : Bool) (url : Bytes) :
    Filed (start onDisconnect .zk url).shared where
  own := by simp [start]
  null := by simp [start]

/-- As zookeeper returns them, the names of a notification are distinct. -/
def Distinct (acts : List (Action Thread Label)) : Prop :=
  ∀ nodes pc, .spawn (.childs nodes pc) ∈ acts → nodes.Nodup

theorem distinct_run {s₀ m : State} {acts : List (Action Thread Label)} (hd : Distinct acts)
    (h₀ : ∀ nodes pc, .childs nodes pc ∈ s₀.threads → nodes.Nodup)
    (h : run program.step s₀ acts = some m) {i : Nat}
    {nodes : List Bytes} {pc : ChildsPc} (hi : m.threads[i]? = some (.childs nodes pc)) :
    nodes.Nodup := by
  refine trace_invariant (I := fun acts m => Distinct acts →
    ∀ i nodes pc, m.threads[i]? = some (.childs nodes pc) → nodes.Nodup)
    (fun _ i nodes pc hi => h₀ nodes pc (List.mem_of_getElem? hi)) ?_ h hd i nodes pc hi
  intro acts m act m' _ hm hstep hd i nodes pc hi
  have hm' := hm fun nodes pc hmem => hd nodes pc (List.mem_append_left _ hmem)
  obtain ⟨hsame, -⟩ | ⟨a, u, new, -, hu, hn⟩ | ⟨-, rfl, -⟩ |
    ⟨-, k, a, u, u', new, -, -, hn, hnew⟩ :=
    thread_step_back hstep hi
  · exact hm' i nodes pc hsame
  · obtain ⟨pc₀, rfl⟩ := childs_section (next_section hn)
    exact hm' i nodes pc₀ hu
  · exact hd nodes pc (by simp)
  · obtain ⟨tp, url, he⟩ := new_section (next_section hn) _ hnew
    cases he

theorem filed_run {onDisconnect : Bool} {url : Bytes} {m : State}
    {acts : List (Action Thread Label)}
    (hd : Distinct acts) (h : run program.step (start onDisconnect .zk url) acts = some m) :
    Filed m.shared := by
  refine trace_invariant (I := fun acts m => Distinct acts → Filed m.shared)
    (fun _ => filed_start onDisconnect url) ?_ h hd
  intro acts m act m' hrun hm hstep hd
  have hd' : Distinct acts := fun nodes pc hmem => hd nodes pc (List.mem_append_left _ hmem)
  cases act with
  | spawn u =>
    obtain ⟨-, rfl⟩ := step_spawn hstep
    exact hm hd'
  | run i a =>
    obtain ⟨t, shared, t', new, hi, hn, rfl⟩ := step_run hstep
    obtain hkeeps | ⟨nodes, tp, tps, -, -, hkeeps⟩ | ⟨nodes, rfl, -, -, rfl, -⟩ :=
      keeps_section (next_section hn)
    · exact (hm hd').keeps hkeeps
    · exact (hm hd').keeps hkeeps
    · exact filed_reconcile (hm hd') (distinct_run hd' (by simp [start]) hrun hi)

end Filed

section Missing

theorem mem_missing {g : TransportGroup} {tp : Nat} :
    tp ∈ missing g ↔ ∃ url : Bytes, g[url]? = some (some tp) := by
  rw [missing, List.mem_filterMap]
  constructor
  · rintro ⟨⟨url, v⟩, hmem, rfl⟩
    exact ⟨url, Std.ExtTreeMap.mem_toList_iff_getElem?_eq_some.mp hmem⟩
  · rintro ⟨url, hurl⟩
    exact ⟨(url, some tp), Std.ExtTreeMap.mem_toList_iff_getElem?_eq_some.mpr hurl, rfl⟩

/-- A transport that is filed once is shut down once. -/
theorem missing_nodup {g : TransportGroup}
    (h : ∀ (url url' : Bytes) (tp : Nat), g[url]? = some (some tp) → g[url']? = some (some tp) →
      url = url') : (missing g).Nodup := by
  rw [missing, List.Nodup, List.pairwise_filterMap]
  refine List.Pairwise.imp_of_mem ?_ Std.ExtTreeMap.distinct_keys_toList
  rintro ⟨url, v⟩ ⟨url', v'⟩ hmem hmem' hne tp rfl tp' rfl rfl
  rw [Std.ExtTreeMap.mem_toList_iff_getElem?_eq_some] at hmem hmem'
  exact hne (Std.LawfulEqCmp.compare_eq_iff_eq.mpr (h url url' tp hmem hmem'))

/-- What the loop leaves behind was filed before, under a url that comes up an even number of
times. -/
theorem left_behind {s : ServerFinder} {nodes : List Bytes} {r : Reconcile} (h : Looped s nodes r)
    {url : Bytes} {tp : Nat} :
    r.finder.transports[url]? = some (some tp) ↔ s.transports[url]? = some (some tp) ∧
      times nodes url % 2 = 0 := by
  cases hs : s.transports[url]? with
  | none =>
    rw [(h.absent url hs).1]
    simp
  | some v =>
    obtain ⟨hzero, hodd, heven⟩ := h.present url v hs
    obtain h0 | h0 := Nat.eq_zero_or_pos (times nodes url)
    · rw [(hzero h0).2, h0]
      simp
    · obtain hmod | hmod := Nat.mod_two_eq_zero_or_one (times nodes url)
      · rw [(heven h0 hmod).2, hmod]
        simp
      · rw [(hodd hmod).2, hmod]
        simp

theorem count_missing {s : ServerFinder} {nodes : List Bytes} {r : Reconcile} (hf : Filed s)
    (h : Looped s nodes r) {url : Bytes} {tp : Nat} (hurl : s.transports[url]? = some (some tp)) :
    (missing r.finder.transports).count tp = if times nodes url % 2 = 0 then 1 else 0 := by
  have hown {u : Bytes} (hu : r.finder.transports[u]? = some (some tp)) : u = url := by
    obtain ⟨x, hx, hxurl⟩ := hf.own u tp ((left_behind h).mp hu).1
    obtain ⟨y, hy, hyurl⟩ := hf.own url tp hurl
    rw [hx] at hy
    cases hy
    exact hxurl.symm.trans hyurl
  have hnodup : (missing r.finder.transports).Nodup := by
    apply missing_nodup
    intro u u' k hu hu'
    obtain ⟨x, hx, hxurl⟩ := hf.own u k ((left_behind h).mp hu).1
    obtain ⟨y, hy, hyurl⟩ := hf.own u' k ((left_behind h).mp hu').1
    rw [hx] at hy
    cases hy
    exact hxurl.symm.trans hyurl
  split
  · rename_i heven
    exact List.count_eq_one_of_mem hnodup (mem_missing.mpr ⟨url, (left_behind h).mpr ⟨hurl, heven⟩⟩)
  · rename_i hodd
    apply List.count_eq_zero.mpr
    intro hmem
    obtain ⟨u, hu⟩ := mem_missing.mp hmem
    obtain rfl := hown hu
    exact hodd ((left_behind h).mp hu).2

end Missing

section Result

/-- What a notification with these nodes is for: the finder `s` becomes `s'`, and the
attempts are started. -/
structure Reconciled (s s' : ServerFinder) (started : List Thread) (nodes : List Bytes) : Prop where
  keys : ∀ url : Bytes, url ∈ s'.transports ↔ url ∈ nodes.map zookeeperNode2Url
  values : ∀ url : Bytes, s'.transports[url]? ≠ some none
  kept : ∀ (url : Bytes) (v : Option Nat), s.transports[url]? = some v → url ∈ s'.transports →
    s'.transports[url]? = some v ∧ ∀ tp x, v = some tp → s.tps[tp]? = some x →
      ∃ y, s'.tps[tp]? = some y ∧ y.shutdowns = x.shutdowns
  made : ∀ url : Bytes, url ∉ s.transports → url ∈ s'.transports →
    (∃ tp, s'.transports[url]? = some (some tp) ∧ s.tps.length ≤ tp ∧
      .retry tp url .connecting ∈ started) ∧
      (s'.tps.drop s.tps.length).countP (fun x => x.url = url) = 1 ∧
      started.countP (attempts url) = 1
  dropped : ∀ (url : Bytes) (tp : Nat) (x : Transport), s.transports[url]? = some (some tp) →
    url ∉ s'.transports →
    s.tps[tp]? = some x → ∃ y, s'.tps[tp]? = some y ∧ y.shutdowns = x.shutdowns + 1

/-- The url does not come up, or is new and comes up once, or has a transport and comes
up an odd number of times. -/
def Settles (g : TransportGroup) (nodes : List Bytes) (url : Bytes) : Prop :=
  times nodes url = 0 ∨ (url ∉ g ∧ times nodes url = 1) ∨
    ((∃ tp, g[url]? = some (some tp)) ∧ times nodes url % 2 = 1)

/-- Every name has a colon, or one name has none and nothing is filed under the empty url,
or a transport is filed there and the number of names without a colon is odd. -/
def Tellable (g : TransportGroup) (nodes : List Bytes) : Prop :=
  nameless nodes = 0 ∨ ([] ∉ g ∧ nameless nodes = 1) ∨
    ((∃ tp, g[([] : Bytes)]? = some (some tp)) ∧ nameless nodes % 2 = 1)

theorem settles_iff_tellable {s : ServerFinder} {nodes : List Bytes} (hf : Filed s)
    (hnodup : nodes.Nodup) :
    (∀ url, Settles s.transports nodes url) ↔ Tellable s.transports nodes := by
  have hempty : Settles s.transports nodes [] ↔ Tellable s.transports nodes := by
    rw [Settles, times_nil, Tellable]
  rw [← hempty]
  constructor
  · intro h
    exact h []
  · intro h url
    by_cases hurl : url = []
    · rw [hurl]
      exact h
    · have hle := times_le_one hnodup hurl
      obtain h0 | h0 := Nat.eq_zero_or_pos (times nodes url)
      · exact .inl h0
      · have hone : times nodes url = 1 := by omega
        cases hs : s.transports[url]? with
        | none =>
          refine .inr (.inl ⟨fun hmem => mem_transports.mp hmem hs, hone⟩)
        | some v =>
          cases v with
          | none => exact absurd (hf.null url hs) hurl
          | some tp => exact .inr (.inr ⟨⟨tp, hs⟩, by rw [hone]⟩)

variable {s s' : ServerFinder} {nodes : List Bytes}

/-- The finder when the loop is done and what it left behind is shut down. -/
def Finished (s s' : ServerFinder) (nodes : List Bytes) : Prop :=
  Keeps { (reconcile s nodes).finder with transports := (reconcile s nodes).group } s'
    (missing (reconcile s nodes).finder.transports)

theorem Finished.mem_iff (h : Finished s s' nodes) (url : Bytes) :
    url ∈ s'.transports ↔ 0 < times nodes url := by
  rw [h.transports, times_pos]
  exact mem_reconcile s nodes url

/-- The new transports at the end are those that the loop made. -/
theorem Finished.countP_new (h : Finished s s' nodes) (url : Bytes) :
    (s'.tps.drop s.tps.length).countP (fun x => x.url = url) =
      if url ∈ s.transports then 0 else times nodes url := by
  obtain ⟨fresh, htps, -, hfresh⟩ := (looped s nodes).made
  have hurls : (s'.tps.drop s.tps.length).map Transport.url = fresh.map Transport.url := by
    apply List.ext_getElem?
    intro k
    rw [List.getElem?_map, List.getElem?_map, List.getElem?_drop]
    cases hx : fresh[k]? with
    | none =>
      have hlen := h.length
      have hle := List.getElem?_eq_none_iff.mp hx
      dsimp only at hlen
      rw [htps, List.length_append] at hlen
      rw [List.getElem?_eq_none (by omega)]
    | some x =>
      have hold : (reconcile s nodes).finder.tps[s.tps.length + k]? = some x := by
        rw [htps, List.getElem?_append_right (Nat.le_add_right _ _), Nat.add_sub_cancel_left, hx]
      obtain ⟨y, hy, hyurl, -⟩ := h.tps _ x hold
      rw [hy, Option.map_some, Option.map_some, hyurl]
  have hcount (l : List Transport) :
      l.countP (fun x => x.url = url) = (l.map Transport.url).countP (fun u => u = url) := by
    rw [List.countP_map]
    rfl
  rw [hcount, hurls, ← hcount, hfresh]

theorem Finished.shut (hf : Filed s) (h : Finished s s' nodes) {url : Bytes} {tp : Nat}
    {x : Transport}
    (hurl : s.transports[url]? = some (some tp)) (hx : s.tps[tp]? = some x) :
    ∃ y, s'.tps[tp]? = some y ∧
    y.shutdowns = x.shutdowns + if times nodes url % 2 = 0 then 1 else 0 := by
  obtain ⟨fresh, htps, -⟩ := (looped s nodes).made
  obtain ⟨hlt, -⟩ := List.getElem?_eq_some_iff.mp hx
  have hold : (reconcile s nodes).finder.tps[tp]? = some x := by
    rw [htps, List.getElem?_append_left hlt, hx]
  obtain ⟨y, hy, -, hshut⟩ := h.tps tp x hold
  exact ⟨y, hy, by rw [hshut, count_missing hf (looped s nodes) hurl]⟩

/-- A url that settles is dealt with as it should be. -/
theorem reconciled_of_settles (hf : Filed s) (h : Finished s s' nodes)
    (hall : ∀ url, Settles s.transports nodes url) :
    Reconciled s s' (reconcile s nodes).started nodes where
  keys := by
    intro url
    rw [h.mem_iff, times_pos]
  values := by
    intro url hnone
    rw [h.transports] at hnone
    obtain ⟨hs, hodd⟩ | ⟨-, hpos, heven⟩ | ⟨tp, x, -, hsome, -⟩ :=
      group_cases (looped s nodes) hnone
    · obtain h0 | ⟨hout, -⟩ | ⟨⟨tp, htp⟩, -⟩ := hall url
      · omega
      · rw [Std.ExtTreeMap.getElem?_eq_none hout] at hs
        cases hs
      · rw [htp] at hs
        cases hs
    · obtain h0 | ⟨-, hone⟩ | ⟨-, hodd⟩ := hall url
      · omega
      · omega
      · omega
    · cases hsome
  kept := by
    intro url v hv hmem
    have hpos := (h.mem_iff url).mp hmem
    obtain h0 | ⟨hout, -⟩ | ⟨-, hodd⟩ := hall url
    · omega
    · rw [Std.ExtTreeMap.getElem?_eq_none hout] at hv
      cases hv
    · refine ⟨?_, ?_⟩
      · rw [h.transports]
        exact (((looped s nodes).present url v hv).2.1 hodd).1
      · rintro tp x rfl hx
        obtain ⟨y, hy, hshut⟩ := h.shut hf hv hx
        exact ⟨y, hy, by rw [hshut, if_neg (by omega), Nat.add_zero]⟩
  made := by
    intro url hout hmem
    have hpos := (h.mem_iff url).mp hmem
    have hnone : s.transports[url]? = none := Std.ExtTreeMap.getElem?_eq_none hout
    have hone : times nodes url = 1 := by
      obtain h0 | ⟨-, hone⟩ | ⟨⟨tp, htp⟩, -⟩ := hall url
      · omega
      · exact hone
      · rw [hnone] at htp
        cases htp
    obtain ⟨tp, x, hgroup, hnew, -, -, hstarted⟩ := ((looped s nodes).absent url hnone).2.2 hpos
    refine ⟨⟨tp, ?_, hnew, hstarted⟩, ?_, ?_⟩
    · rw [h.transports]
      exact hgroup
    · rw [h.countP_new, if_neg hout, hone]
    · rw [(looped s nodes).started, if_neg hout, hone]
  dropped := by
    intro url tp x hurl hgone hx
    have hzero : times nodes url = 0 := by
      by_contra hne
      exact hgone ((h.mem_iff url).mpr (Nat.pos_of_ne_zero hne))
    obtain ⟨y, hy, hshut⟩ := h.shut hf hurl hx
    exact ⟨y, hy, by rw [hshut, hzero, if_pos rfl]⟩

theorem settles_of_reconciled (h : Finished s s' nodes)
    (hr : Reconciled s s' (reconcile s nodes).started nodes) (url : Bytes) :
    Settles s.transports nodes url := by
  obtain h0 | hpos := Nat.eq_zero_or_pos (times nodes url)
  · exact .inl h0
  · have hmem := (h.mem_iff url).mpr hpos
    cases hs : s.transports[url]? with
    | none =>
      have hout : url ∉ s.transports := fun hin => mem_transports.mp hin hs
      obtain ⟨-, hone, -⟩ := hr.made url hout hmem
      rw [h.countP_new, if_neg hout] at hone
      exact .inr (.inl ⟨hout, hone⟩)
    | some v =>
      obtain ⟨hsame, -⟩ := hr.kept url v hs hmem
      cases v with
      | none => exact absurd hsame (hr.values url)
      | some tp =>
        refine .inr (.inr ⟨⟨tp, hs⟩, ?_⟩)
        by_contra hmod
        have heven := (((looped s nodes).present url _ hs).2.2 hpos (by omega)).1
        rw [h.transports] at hsame
        rw [hsame] at heven
        cases heven

end Result

section Runs

/-- A notification does what it is for exactly when the names without a colon settle. The
other threads may run between the swap of the groups and the unlock. -/
theorem reconciled_iff (onDisconnect : Bool) (url : Bytes) (pre mid : List (Action Thread Label))
    (m m₁ s : State) (i : Nat) (nodes : List Bytes) (hnames : Distinct pre)
    (hpre : run program.step (start onDisconnect .zk url) pre = some m)
    (hi : m.threads[i]? = some (.childs nodes .holding)) (htoken : m.shared.token = true)
    (happly : program.step m (.run i .apply) = some m₁)
    (hmid : run program.step m₁ (mid ++ [.run i .unlock]) = some s) :
    Reconciled m.shared s.shared (m₁.threads.drop m.threads.length) nodes ↔
      Tellable m.shared.transports nodes := by
  have hf := filed_run hnames hpre
  have hnodup := distinct_run hnames (by simp [start]) hpre hi
  have he₁ := exclusive_step (exclusive_run hpre) happly
  obtain ⟨t, shared, t', new, ht, hn, rfl⟩ := step_run happly
  obtain rfl : .childs nodes .holding = t := Option.some.inj (hi.symm.trans ht)
  have hnext : program.next m.shared i (.childs nodes .holding) .apply =
      some
        ({ (reconcile m.shared nodes).finder with transports := (reconcile m.shared nodes).group },
          .childs nodes (.shutting (missing (reconcile m.shared nodes).finder.transports)),
          (reconcile m.shared nodes).started) := by
    simp [program, threadNext, childsNext, htoken]
  rw [hnext] at hn
  cases hn
  obtain ⟨hlt, -⟩ := List.getElem?_eq_some_iff.mp hi
  have hat :
      (m.threads.set i
        (.childs nodes (.shutting (missing (reconcile m.shared nodes).finder.transports))) ++
        (reconcile m.shared nodes).started)[i]? =
          some (.childs nodes
            (.shutting (missing (reconcile m.shared nodes).finder.transports))) := by
    rw [List.getElem?_append_left (by simpa using hlt), List.getElem?_set_self hlt]
  have hfinished : Finished m.shared s.shared nodes := closing_run he₁ hat hmid
  rw [List.drop_left' (List.length_set ..), ← settles_iff_tellable hf hnodup]
  constructor
  · intro hr
    exact settles_of_reconciled hfinished hr
  · intro hall
    exact reconciled_of_settles hf hfinished hall

/-- The first of two nodes leaves, and a node without a colon comes. -/
def turnRun : List (Action Thread Label) :=
  [.spawn (.childs [[97, 58, 65], [98, 58, 65]] .notified), .run 0 .tryLock,
    .run 0 .apply, .run 0 .unlock, .spawn (.childs [[98, 58, 65], [97]] .notified), .run 3 .tryLock]

theorem distinct_turnRun : Distinct turnRun := by
  intro nodes pc hmem
  simp only [turnRun, List.mem_cons, Action.spawn.injEq, Thread.childs.injEq, reduceCtorEq,
    false_or, List.not_mem_nil, or_false] at hmem
  obtain ⟨rfl, -⟩ | ⟨rfl, -⟩ := hmem
  · decide
  · decide

theorem turn_reconciled : ∃ m m₁ s : State, run program.step (start false .zk []) turnRun = some m ∧
    program.step m (.run 3 .apply) = some m₁ ∧
    run program.step m₁ [.run 3 .shutdown, .run 3 .unlock] = some s ∧ m.shared.transports.size = 2 ∧
    Reconciled m.shared s.shared (m₁.threads.drop m.threads.length) [[98, 58, 65], [97]] := by
  obtain ⟨m, hm, hat⟩ := run_exists program.step (start false .zk []) turnRun
    (fun m => m.threads[3]? = some (.childs [[98, 58, 65], [97]] .holding) ∧ m.shared.token = true ∧
      m.shared.transports.size = 2 ∧ m.shared.transports.contains [] = false ∧
      (run program.step m [.run 3 .apply, .run 3 .shutdown, .run 3 .unlock]).isSome)
        (by decide +kernel)
  obtain ⟨hi, htoken, hsize, hempty, hrest⟩ := of_decide_eq_true hat
  obtain ⟨s, hs⟩ := Option.isSome_iff_exists.mp hrest
  rw [run_cons, Option.bind_eq_some_iff] at hs
  obtain ⟨m₁, hm₁, hs⟩ := hs
  refine ⟨m, m₁, s, hm, hm₁, hs, hsize, ?_⟩
  refine (reconciled_iff false [] turnRun [.run 3 .shutdown] m m₁ s 3 _
    distinct_turnRun hm hi htoken
    hm₁ hs).mpr ?_
  refine .inr (.inl ⟨?_, by decide⟩)
  rw [Std.ExtTreeMap.mem_iff_contains, hempty]
  exact Bool.false_ne_true

/-- Two names without a colon get a transport each, and one of the two is lost. -/
def lostRun : List (Action Thread Label) :=
  [.spawn (.childs [[97], [98]] .notified), .run 0 .tryLock]

theorem lost_not_reconciled :
    ¬ ∀ (onDisconnect : Bool) (url : Bytes) (pre mid : List (Action Thread Label)) (m m₁ s : State)
      (i : Nat) (nodes : List Bytes), Distinct pre →
      run program.step (start onDisconnect .zk url) pre = some m →
      m.threads[i]? = some (.childs nodes .holding) → m.shared.token = true →
      program.step m (.run i .apply) = some m₁ →
      run program.step m₁ (mid ++ [.run i .unlock]) = some s →
      Reconciled m.shared s.shared (m₁.threads.drop m.threads.length) nodes := by
  intro hall
  have hdistinct : Distinct lostRun := by
    intro nodes pc hmem
    simp only [lostRun, List.mem_cons, Action.spawn.injEq, Thread.childs.injEq, reduceCtorEq,
      List.not_mem_nil, or_false] at hmem
    obtain ⟨rfl, -⟩ := hmem
    decide
  obtain ⟨m, hm, hat⟩ := run_exists program.step (start false .zk []) lostRun
    (fun m => m.threads[0]? = some (.childs [[97], [98]] .holding) ∧ m.shared.token = true ∧
      m.shared.transports.contains [] = false ∧
      (run program.step m [.run 0 .apply, .run 0 .unlock]).any fun s =>
      s.shared.transports.contains [] ∧
        (s.shared.tps.drop m.shared.tps.length).countP (fun x => x.url = []) = 2)
          (by decide +kernel)
  obtain ⟨hi, htoken, hempty, hrest⟩ := of_decide_eq_true hat
  obtain ⟨s, hs, hbad⟩ := (Option.any_eq_true _ _).mp hrest
  obtain ⟨hfull, htwo⟩ := of_decide_eq_true hbad
  rw [run_cons, Option.bind_eq_some_iff] at hs
  obtain ⟨m₁, hm₁, hs⟩ := hs
  have hmade := (hall false [] lostRun [] m m₁ s 0 _ hdistinct hm hi htoken hm₁ hs).made []
  rw [Std.ExtTreeMap.mem_iff_contains, Std.ExtTreeMap.mem_iff_contains, hempty, hfull,
    htwo] at hmade
  obtain ⟨-, hone, -⟩ := hmade Bool.false_ne_true rfl
  cases hone

end Runs

end Ucorf.FinderReconcile
