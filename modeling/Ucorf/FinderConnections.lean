import Ucorf.FinderSections

/-!
# Which servers stay connected

A disconnect and a retry look their url up in `transports_` and do not compare the
transport there with their own, and a `Connect` may succeed after its node is gone. When
a node returns only after everybody who acts for its former transport is through, when it
does not leave between a check and its `go`, and when no `Connect` outlives its node, an
attempt is for the listed transport of its url, and what is established when everything
has come to rest is listed.
-/
namespace Ucorf.FinderConnections

open Ucorf.Message
open Ucorf.Threads
open Ucorf.ZookeeperUrl
open Ucorf.Finder
open Ucorf.FinderSections

/-- The transport is the value of `transports_` for the url. -/
def Listed (s : ServerFinder) (tp : Nat) (url : Bytes) : Prop :=
  s.transports[url]? = some (some tp)

instance (s : ServerFinder) (tp : Nat) (url : Bytes) : Decidable (Listed s tp url) :=
  inferInstanceAs (Decidable (_ = _))

section Reconcile

theorem getElem?_insert (g : TransportGroup) (url : Bytes) (v : Option Nat) (k : Bytes) :
    (g.insert url v)[k]? = if url = k then some v else g[k]? := by
  rw [Std.ExtTreeMap.getElem?_insert]
  simp only [Std.LawfulEqCmp.compare_eq_iff_eq]

/-- The loop of a notification once it has handled the urls `done`. -/
structure Handled (s : ServerFinder) (done : List Bytes) (r : Reconcile) : Prop where
  kept : ∀ (url : Bytes) (old : Option Nat), url ∈ done → s.transports[url]? = some old →
    r.group[url]? = some old
  rest : ∀ url : Bytes, url ∉ done →
    r.group[url]? = none ∧ r.finder.transports[url]? = s.transports[url]?
  left : ∀ (url : Bytes) (tp : Nat), r.finder.transports[url]? = some (some tp) →
    url ∉ done ∧ s.transports[url]? = some (some tp)
  value : ∀ (url : Bytes) (tp : Nat), r.group[url]? = some (some tp) →
    s.transports[url]? = some (some tp) ∨ ∃ x, r.finder.tps[tp]? = some x ∧ x.url = url
  made : ∃ fresh : List Transport, r.finder.tps = s.tps ++ fresh ∧ ∀ t ∈ fresh, t.estab = false
  started : ∀ t ∈ r.started, ∃ (tp : Nat) (url : Bytes), t = .retry tp url .connecting ∧
    url ∈ done ∧ r.group[url]? = some (some tp) ∧ ∃ x, r.finder.tps[tp]? = some x ∧ x.url = url

theorem handled_nil (s : ServerFinder) : Handled s [] ⟨s, ∅, []⟩ where
  kept := by simp
  rest := by simp
  left := by simp
  value := by simp
  made := ⟨[], by simp, by simp⟩
  started := by simp

/-- A node whose url comes up for the first time keeps its transport or gets a new one. -/
theorem handled_node {s : ServerFinder} {done : List Bytes} {r : Reconcile} {node : Bytes}
    (h : Handled s done r) (hnew : zookeeperNode2Url node ∉ done) :
    Handled s (done ++ [zookeeperNode2Url node]) (onNode r node) := by
  obtain ⟨hgroup, htransports⟩ := h.rest _ hnew
  unfold onNode
  generalize zookeeperNode2Url node = here at *
  have hother {url : Bytes} (hurl : url ∈ done) : here ≠ url := fun he => hnew (he ▸ hurl)
  have hlater {url : Bytes} : url ∉ done ++ [here] ↔ url ∉ done ∧ here ≠ url := by
    simp only [List.mem_append, List.mem_singleton, not_or, ne_comm]
  dsimp only
  split
  · rename_i old hold
    rw [hgroup, Option.getD_none]
    constructor
    · intro url old' hurl hs
      rw [getElem?_insert]
      obtain hurl | hurl := List.mem_append.mp hurl
      · rw [if_neg (hother hurl)]
        exact h.kept url old' hurl hs
      · obtain rfl := List.mem_singleton.mp hurl
        rw [if_pos rfl, ← hold, htransports, hs]
    · intro url hurl
      obtain ⟨hurl, hne⟩ := hlater.mp hurl
      rw [getElem?_insert, getElem?_insert, if_neg hne, if_neg hne]
      exact h.rest url hurl
    · intro url tp hurl
      rw [getElem?_insert] at hurl
      split at hurl
      · cases hurl
      · rename_i hne
        obtain ⟨hdone, hs⟩ := h.left url tp hurl
        exact ⟨hlater.mpr ⟨hdone, hne⟩, hs⟩
    · intro url tp hurl
      rw [getElem?_insert] at hurl
      split at hurl
      · rename_i he
        subst he
        exact .inl (by rw [← htransports, hold, hurl])
      · exact h.value url tp hurl
    · exact h.made
    · intro t ht
      obtain ⟨tp, url, he, hurl, hvalue, htps⟩ := h.started t ht
      refine ⟨tp, url, he, List.mem_append_left _ hurl, ?_, htps⟩
      rw [getElem?_insert, if_neg (hother hurl), hvalue]
  · rename_i hold
    have hkept {tp : Nat} {url : Bytes} (hx : ∃ x, r.finder.tps[tp]? = some x ∧ x.url = url) :
        ∃ x, (r.finder.tps ++ [⟨here, false, 0⟩])[tp]? = some x ∧ x.url = url := by
      obtain ⟨x, hx, hxurl⟩ := hx
      obtain ⟨hlt, -⟩ := List.getElem?_eq_some_iff.mp hx
      exact ⟨x, by rw [List.getElem?_append_left hlt, hx], hxurl⟩
    constructor
    · intro url old' hurl hs
      obtain hurl | hurl := List.mem_append.mp hurl
      · rw [getElem?_insert, if_neg (hother hurl)]
        exact h.kept url old' hurl hs
      · obtain rfl := List.mem_singleton.mp hurl
        rw [← htransports, hold] at hs
        cases hs
    · intro url hurl
      obtain ⟨hurl, hne⟩ := hlater.mp hurl
      rw [getElem?_insert, if_neg hne]
      exact h.rest url hurl
    · intro url tp hurl
      obtain ⟨hdone, hs⟩ := h.left url tp hurl
      refine ⟨hlater.mpr ⟨hdone, ?_⟩, hs⟩
      rintro rfl
      rw [hold] at hurl
      cases hurl
    · intro url tp hurl
      rw [getElem?_insert] at hurl
      split at hurl
      · rename_i he
        obtain rfl : r.finder.tps.length = tp := Option.some.inj (Option.some.inj hurl)
        exact .inr ⟨_, List.getElem?_concat_length, he⟩
      · exact (h.value url tp hurl).imp id hkept
    · obtain ⟨fresh, htps, hfresh⟩ := h.made
      refine ⟨fresh ++ [⟨here, false, 0⟩], by rw [htps, List.append_assoc], ?_⟩
      intro t ht
      obtain ht | ht := List.mem_append.mp ht
      · exact hfresh t ht
      · obtain rfl := List.mem_singleton.mp ht
        rfl
    · intro t ht
      obtain ht | ht := List.mem_append.mp ht
      · obtain ⟨tp, url, he, hurl, hvalue, hx⟩ := h.started t ht
        refine ⟨tp, url, he, List.mem_append_left _ hurl, ?_, hkept hx⟩
        rw [getElem?_insert, if_neg (hother hurl), hvalue]
      · obtain rfl := List.mem_singleton.mp ht
        refine ⟨r.finder.tps.length, here, rfl, List.mem_append_right _ (List.mem_singleton_self _),
          ?_, _, List.getElem?_concat_length, rfl⟩
        rw [getElem?_insert, if_pos rfl]

theorem handled_reconcile (s : ServerFinder) (nodes : List Bytes)
    (hnodup : (nodes.map zookeeperNode2Url).Nodup) :
    Handled s (nodes.map zookeeperNode2Url) (reconcile s nodes) := by
  induction nodes using List.reverseRecOn with
  | nil => exact handled_nil s
  | append_singleton nodes node ih =>
    rw [List.map_append, List.nodup_append] at hnodup
    obtain ⟨hfirst, -, hlast⟩ := hnodup
    have hnew : zookeeperNode2Url node ∉ nodes.map zookeeperNode2Url := by
      intro hmem
      exact hlast _ hmem _ (by simp) rfl
    have hstep := handled_node (ih hfirst) hnew
    rw [List.map_append]
    rwa [reconcile, List.foldl_append]

/-- After the swap of the groups, what was listed is listed or about to be shut down. -/
theorem listed_or_missing {s : ServerFinder} {nodes : List Bytes}
    (hnodup : (nodes.map zookeeperNode2Url).Nodup) {tp : Nat} {url : Bytes} (h : Listed s tp url) :
    (reconcile s nodes).group[url]? = some (some tp) ∨
      (url ∉ nodes.map zookeeperNode2Url ∧
        tp ∈ missing (reconcile s nodes).finder.transports) := by
  have hhandled := handled_reconcile s nodes hnodup
  by_cases hurl : url ∈ nodes.map zookeeperNode2Url
  · exact .inl (hhandled.kept url _ hurl h)
  · right
    refine ⟨hurl, List.mem_filterMap.mpr ⟨(url, some tp), ?_, rfl⟩⟩
    rw [Std.ExtTreeMap.mem_toList_iff_getElem?_eq_some, (hhandled.rest url hurl).2]
    exact h

/-- Who is about to be shut down was listed for a url that is not among the nodes. -/
theorem listed_of_missing {s : ServerFinder} {nodes : List Bytes}
    (hnodup : (nodes.map zookeeperNode2Url).Nodup) {tp : Nat}
    (h : tp ∈ missing (reconcile s nodes).finder.transports) :
    ∃ url, Listed s tp url ∧ url ∉ nodes.map zookeeperNode2Url := by
  obtain ⟨⟨url, value⟩, hmem, hvalue⟩ := List.mem_filterMap.mp h
  change value = some tp at hvalue
  rw [Std.ExtTreeMap.mem_toList_iff_getElem?_eq_some, hvalue] at hmem
  obtain ⟨hurl, hlisted⟩ := (handled_reconcile s nodes hnodup).left url tp hmem
  exact ⟨url, hlisted, hurl⟩

end Reconcile

section Predicates

/-- The notification is still to shut the transport down. -/
def dooms (tp : Nat) : Thread → Bool
  | .childs _ (.shutting tps) => tps.contains tp
  | _ => false

def Doomed (s : State) (tp : Nat) : Prop := s.threads.any (dooms tp) = true

theorem doomed_iff {s : State} {tp : Nat} :
    Doomed s tp ↔ ∃ (i : Nat) (nodes : List Bytes) (tps : List Nat),
      s.threads[i]? = some (.childs nodes (.shutting tps)) ∧ tp ∈ tps := by
  constructor
  · intro h
    obtain ⟨t, ht, hdooms⟩ := List.any_eq_true.mp h
    obtain ⟨i, hi⟩ := List.mem_iff_getElem?.mp ht
    unfold dooms at hdooms
    split at hdooms
    · exact ⟨i, _, _, hi, List.contains_iff_mem.mp hdooms⟩
    · cases hdooms
  · rintro ⟨i, nodes, tps, hi, htp⟩
    exact List.any_eq_true.mpr ⟨_, List.mem_of_getElem? hi, List.contains_iff_mem.mpr htp⟩

/-- An attempt that is past its check and has not started the next one. -/
def cleared : RetryPc → Bool
  | .passing => true
  | .going => true
  | _ => false

def clearedUrl : Thread → Option Bytes
  | .retry _ url pc => if cleared pc then some url else none
  | _ => none

/-- The transport that a handler of a disconnect is still to look up, or that an attempt
is still to connect or to start again. -/
def actsFor : Thread → Option Nat
  | .disc _ _ .calling | .disc _ _ (.leaving _) | .disc _ _ (.returned _) => none
  | .disc tp _ _ => some tp
  | .retry _ _ (.leaving _) | .retry _ _ (.returned _) => none
  | .retry tp _ _ => some tp
  | _ => none

/-- Nobody acts for a transport with this url. -/
def Vacant (s : State) (url : Bytes) : Prop :=
  ∀ t ∈ s.threads, ∀ tp ∈ actsFor t, ∀ x ∈ s.shared.tps[tp]?, x.url ≠ url

/-- The condition on a section. The urls of a notification are distinct, it leaves the node
of a cleared attempt listed, and a node comes, or comes back, when nobody acts for a
transport with its url. A `Connect` succeeds while its node is listed, or before the
notification that removed the node shuts the transport down. -/
def OrderlySection (s : State) : Thread → Label → Prop
  | .childs nodes .holding, .apply => s.shared.token = true →
    (nodes.map zookeeperNode2Url).Nodup ∧
    (∀ url ∈ s.threads.filterMap clearedUrl, url ∈ nodes.map zookeeperNode2Url) ∧
    ∀ url ∈ nodes.map zookeeperNode2Url, url ∉ s.shared.transports → Vacant s url
  | .retry tp url .connecting, .connect ec =>
    ec.failed = false → url ∈ s.shared.transports ∨ Doomed s tp
  | _, _ => True

/-- While the node of a transport is listed, the connections that break are established ones:
the callback of a `Shutdown` does not come in after the node has returned. -/
def OrderlySpawn (s : State) : Thread → Prop
  | .disc tp _ _ =>
    s.shared.tps[tp]?.any (fun x => x.url ∈ s.shared.transports → x.estab = true) = true
  | _ => True

def Orderly (s : State) : Action Thread Label → Prop
  | .spawn t => OrderlySpawn s t
  | .run i a => ∀ t ∈ s.threads[i]?, OrderlySection s t a

instance (s : State) (tp : Nat) : Decidable (Doomed s tp) := inferInstanceAs (Decidable (_ = _))

/-- The membership tests of the conditions compare urls byte by byte. -/
theorem lawful_bytes : LawfulBEq Bytes := inferInstance

instance (s : State) (url : Bytes) : Decidable (Vacant s url) :=
  inferInstanceAs (Decidable (∀ t ∈ s.threads, ∀ tp ∈ actsFor t,
    ∀ x ∈ s.shared.tps[tp]?, x.url ≠ url))

instance (s : State) (t : Thread) (a : Label) : Decidable (OrderlySection s t a) := by
  haveI := lawful_bytes
  unfold OrderlySection
  split <;> infer_instance

instance (s : State) (t : Thread) : Decidable (OrderlySpawn s t) := by
  unfold OrderlySpawn
  split <;> infer_instance

instance (s : State) : (act : Action Thread Label) → Decidable (Orderly s act)
  | .spawn t => inferInstanceAs (Decidable (OrderlySpawn s t))
  | .run i a => inferInstanceAs (Decidable (∀ t ∈ s.threads[i]?, OrderlySection s t a))

theorem mem_clearedUrl {s : State} {i tp : Nat} {url : Bytes} {pc : RetryPc}
    (hi : s.threads[i]? = some (.retry tp url pc)) (hpc : cleared pc = true) :
    url ∈ s.threads.filterMap clearedUrl :=
  List.mem_filterMap.mpr ⟨_, List.mem_of_getElem? hi, if_pos hpc⟩

def resting : Thread → Bool
  | .childs _ (.returned _) => true
  | .disc _ _ (.returned _) => true
  | .retry _ _ (.returned _) => true
  | .reconnect _ => true
  | .destroy _ => true
  | _ => false

/-- No handler and no attempt is under way. -/
def AtRest (s : State) : Prop := ∀ t ∈ s.threads, resting t = true

/-- Every attempt that the step starts is for the listed transport of its url. -/
def StartsListed (s s' : State) : Prop :=
  ∀ tp url, .retry tp url .connecting ∈ s'.threads.drop s.threads.length →
    Listed s'.shared tp url

/-- The transport is the listed one of its url, as long as the url is listed at all. -/
def Attached (s : ServerFinder) (tp : Nat) : Prop :=
  ∃ x, s.tps[tp]? = some x ∧ (x.url ∈ s.transports → Listed s tp x.url)

/-- Whoever acts for a transport acts for the listed one, and whoever is established is
listed or about to be shut down. -/
structure Sound (s : State) : Prop where
  zk : s.shared.mode = .zk
  named : ∀ tp url, Listed s.shared tp url → ∃ x, s.shared.tps[tp]? = some x ∧ x.url = url
  urls : ∀ (i : Nat) tp url pc, s.threads[i]? = some (.retry tp url pc) →
    ∃ x, s.shared.tps[tp]? = some x ∧ x.url = url
  acting : ∀ (i : Nat) t tp, s.threads[i]? = some t → actsFor t = some tp → Attached s.shared tp
  cleared : ∀ (i : Nat) tp url pc, s.threads[i]? = some (.retry tp url pc) → cleared pc = true →
    Listed s.shared tp url
  estab : ∀ tp x, s.shared.tps[tp]? = some x → x.estab = true →
    Listed s.shared tp x.url ∨ Doomed s tp
  gone : ∀ tp, Doomed s tp → ∃ x, s.shared.tps[tp]? = some x ∧ x.url ∉ s.shared.transports

end Predicates

section Steps

/-- A section that leaves `transports_` alone and establishes nothing. -/
structure Quiet (s s' : ServerFinder) : Prop where
  mode : s'.mode = s.mode
  transports : s'.transports = s.transports
  back : ∀ (tp : Nat) (x : Transport), s'.tps[tp]? = some x → x.estab = true → s.tps[tp]? = some x

theorem quiet_of_same {s s' : ServerFinder} (hmode : s'.mode = s.mode)
    (htransports : s'.transports = s.transports) (htps : s'.tps = s.tps) : Quiet s s' := by
  refine ⟨hmode, htransports, ?_⟩
  intro tp x h _
  rwa [← htps]

theorem quiet_setTransport (s : ServerFinder) (tp : Nat) {f : Transport → Transport}
    (hf : ∀ x, (f x).estab = false) : Quiet s (s.setTransport tp f) := by
  refine ⟨rfl, rfl, ?_⟩
  intro k x h he
  by_cases hk : tp = k
  · simp only [ServerFinder.setTransport, List.getElem?_modify, hk, if_true] at h
    obtain ⟨y, -, rfl⟩ := Option.map_eq_some_iff.mp h
    rw [hf] at he
    cases he
  · simpa [ServerFinder.setTransport, hk] using h

variable {s s' : ServerFinder} {self : Nat} {t t' : Thread} {new : List Thread} {a : Label}

/-- In zk mode a notification and a successful `Connect` do something to the connections. -/
theorem connection_section (hzk : s.mode = .zk) (h : Section s self t a s' t' new) :
    Quiet s s' ∨
      (∃ nodes, t = .childs nodes .holding ∧ a = .apply ∧ s.token = true ∧
        s' = { (reconcile s nodes).finder with transports := (reconcile s nodes).group } ∧
        t' = .childs nodes (.shutting (missing (reconcile s nodes).finder.transports)) ∧
        new = (reconcile s nodes).started) ∨
      ∃ tp url ec, t = .retry tp url .connecting ∧ a = .connect ec ∧ ec.failed = false ∧
        s' = s.connected tp ∧ t' = .retry tp url (.returned .connected) ∧ new = [] := by
  cases h with
  | apply htoken => exact .inr (.inl ⟨_, rfl, rfl, htoken, rfl, rfl, rfl⟩)
  | connected hec => exact .inr (.inr ⟨_, _, _, rfl, rfl, hec, rfl, rfl, rfl⟩)
  | reconnected hsingle =>
    rw [hzk] at hsingle
    cases hsingle
  | shutdown => exact .inl (quiet_setTransport s _ fun _ => rfl)
  | drop => exact .inl (quiet_setTransport s _ fun _ => rfl)
  | call => exact .inl (by split <;> exact quiet_of_same rfl rfl rfl)
  | _ => exact .inl (quiet_of_same rfl rfl rfl)

/-- A transport keeps its url. -/
theorem url_section (h : Section s self t a s' t' new) {tp : Nat} {x : Transport}
    (hx : s.tps[tp]? = some x) : ∃ x', s'.tps[tp]? = some x' ∧ x'.url = x.url := by
  have hset (k : Nat) {f : Transport → Transport} (hf : ∀ y, (f y).url = y.url) :
      ∃ x', (s.setTransport k f).tps[tp]? = some x' ∧ x'.url = x.url := by
    by_cases hk : k = tp
    · exact ⟨f x, by simp [ServerFinder.setTransport, hx, hk], hf x⟩
    · exact ⟨x, by simp [ServerFinder.setTransport, hx, hk], rfl⟩
  cases h with
  | apply =>
    rename_i nodes _
    obtain ⟨group, tps, hfinder⟩ := finder_foldl nodes ⟨s, ∅, []⟩
    obtain ⟨hlt, -⟩ := List.getElem?_eq_some_iff.mp hx
    refine ⟨x, ?_, rfl⟩
    rw [reconcile, hfinder]
    dsimp only
    rw [List.getElem?_append_left hlt, hx]
  | shutdown => exact hset _ fun _ => rfl
  | drop => exact hset _ fun _ => rfl
  | connected => exact hset _ fun _ => rfl
  | reconnected => exact hset _ fun _ => rfl
  | call => exact ⟨x, by split <;> exact hx, rfl⟩
  | _ => exact ⟨x, hx, rfl⟩

/-- An attempt comes from itself, and gets cleared by its check. -/
theorem retry_section {tp : Nat} {url : Bytes} {pc : RetryPc}
    (h : Section s self t a s' (.retry tp url pc) new) :
    ∃ pc₀, t = .retry tp url pc₀ ∧
      (cleared pc = true → cleared pc₀ = true ∨
        (pc₀ = .holding ∧ a = .decide ∧ s.token = true ∧ s.wants url = true)) := by
  cases h with
  | contended _ hc => cases hc with | retry => exact ⟨_, rfl, by simp [cleared]⟩
  | acquired _ hc => cases hc with | retry => exact ⟨_, rfl, by simp [cleared]⟩
  | dead _ hl => cases hl with | retry => exact ⟨_, rfl, by simp [cleared]⟩
  | released hr =>
    cases hr with
    | retry => exact ⟨_, rfl, by simp [cleared]⟩
    | passing => exact ⟨_, rfl, fun _ => .inl rfl⟩
  | passed htoken hwants => exact ⟨_, rfl, fun _ => .inr ⟨rfl, rfl, htoken, hwants⟩⟩
  | _ => exact ⟨_, rfl, by simp [cleared]⟩

/-- Who acts for a transport after a section did so before it. -/
theorem actsFor_section (h : Section s self t a s' t' new) {tp : Nat} (htp : actsFor t' = some tp) :
    actsFor t = some tp := by
  cases h with
  | contended _ hc => cases hc <;> cases htp
  | acquired _ hc => cases hc <;> exact htp
  | dead _ hl => cases hl <;> cases htp
  | released hr =>
    cases hr with
    | passing => exact htp
    | _ => cases htp
  | drop => exact htp
  | failed => exact htp
  | woken => exact htp
  | passed => exact htp
  | _ => cases htp

/-- A section starts attempts for the nodes of a notification, after a disconnect, or again. -/
theorem started_section (h : Section s self t a s' t' new) {tp : Nat} {url : Bytes}
    (hnew : .retry tp url .connecting ∈ new) :
    (∃ nodes, t = .childs nodes .holding ∧ a = .apply ∧ s.token = true ∧
        .retry tp url .connecting ∈ (reconcile s nodes).started ∧
        s' = { (reconcile s nodes).finder with transports := (reconcile s nodes).group }) ∨
      (∃ ec elsewhere x, t = .disc tp ec .holding ∧ a = .check elsewhere ∧ s.tps[tp]? = some x ∧
        s.wants x.url = true ∧ url = x.url ∧ s' = s) ∨
      (t = .retry tp url .going ∧ s' = s) := by
  cases h with
  | apply htoken => exact .inl ⟨_, rfl, rfl, htoken, hnew, rfl⟩
  | check htoken hx href =>
    split at hnew
    · cases List.mem_singleton.mp hnew
      exact .inr (.inl ⟨_, _, _, rfl, rfl, hx, ‹_›, rfl, rfl⟩)
    · cases hnew
  | go =>
    cases List.mem_singleton.mp hnew
    exact .inr (.inr ⟨rfl, rfl⟩)
  | _ => cases hnew

/-- What is about to be shut down stays so until it is. -/
theorem shutting_section {nodes : List Bytes} {tps : List Nat} {tp : Nat}
    (h : Section s self (.childs nodes (.shutting tps)) a s' t' new) (htp : tp ∈ tps) :
    (∃ tps', t' = .childs nodes (.shutting tps') ∧ tp ∈ tps') ∨ s' = s.shutdown tp := by
  cases h with
  | contended _ hc => cases hc
  | acquired _ hc => cases hc
  | dead _ hl => cases hl
  | released hr =>
    cases hr with
    | shut => cases htp
  | shutdown =>
    obtain rfl | htp := List.mem_cons.mp htp
    · exact .inr rfl
    · exact .inl ⟨_, rfl, htp⟩

/-- A notification shuts down what it was about to, or what its own section removed. -/
theorem shutting_back {nodes : List Bytes} {tps : List Nat} {tp : Nat}
    (h : Section s self t a s' (.childs nodes (.shutting tps)) new) (htp : tp ∈ tps) :
    (∃ tps', t = .childs nodes (.shutting tps') ∧ tp ∈ tps' ∧ s'.transports = s.transports) ∨
      (t = .childs nodes .holding ∧ a = .apply ∧ s.token = true ∧
        tp ∈ missing (reconcile s nodes).finder.transports ∧
        s'.transports = (reconcile s nodes).group) := by
  cases h with
  | contended _ hc => cases hc
  | acquired _ hc => cases hc
  | dead _ hl => cases hl
  | released hr => cases hr
  | apply htoken => exact .inr ⟨rfl, rfl, htoken, htp, rfl⟩
  | shutdown => exact .inl ⟨_, rfl, List.mem_cons_of_mem _ htp, rfl⟩

end Steps

section Runs

variable {s s' : State} {act : Action Thread Label}

/-- What an orderly step can do to the connections. -/
theorem connection_step (hzk : s.shared.mode = .zk) (ho : Orderly s act)
    (h : program.step s act = some s') :
    Quiet s.shared s'.shared ∨
      (∃ (i : Nat) (nodes : List Bytes), act = .run i .apply ∧
        s.threads[i]? = some (.childs nodes .holding) ∧ (nodes.map zookeeperNode2Url).Nodup ∧
        (∀ url ∈ s.threads.filterMap clearedUrl, url ∈ nodes.map zookeeperNode2Url) ∧
        (∀ url ∈ nodes.map zookeeperNode2Url, url ∉ s.shared.transports → Vacant s url) ∧
        s'.shared = { (reconcile s.shared nodes).finder with
          transports := (reconcile s.shared nodes).group } ∧
        ∃ t, s'.threads[i]? = some t ∧
          t = .childs nodes (.shutting (missing (reconcile s.shared nodes).finder.transports))) ∨
      ∃ (i tp : Nat) (url : Bytes), s.threads[i]? = some (.retry tp url .connecting) ∧
        (url ∈ s.shared.transports ∨ Doomed s tp) ∧ s'.shared = s.shared.connected tp := by
  cases act with
  | spawn u =>
    obtain ⟨-, rfl⟩ := step_spawn h
    exact .inl (quiet_of_same rfl rfl rfl)
  | run i a =>
    obtain ⟨t, shared, t', new, ht, hn, rfl⟩ := step_run h
    obtain hquiet | ⟨nodes, rfl, rfl, htoken, rfl, rfl, -⟩ |
      ⟨tp, url, ec, rfl, rfl, hec, rfl, -, -⟩ :=
      connection_section hzk (next_section hn)
    · exact .inl hquiet
    · obtain ⟨hnodup, hcleared, hvacant⟩ := ho _ ht htoken
      obtain ⟨hlt, -⟩ := List.getElem?_eq_some_iff.mp ht
      refine .inr (.inl ⟨i, nodes, rfl, ht, hnodup, hcleared, hvacant, rfl, _, ?_, rfl⟩)
      rw [List.getElem?_append_left (by simpa using hlt), List.getElem?_set_self hlt]
    · exact .inr (.inr ⟨i, tp, url, ht, ho _ ht hec, rfl⟩)

theorem url_step (h : program.step s act = some s') {tp : Nat} {x : Transport}
    (hx : s.shared.tps[tp]? = some x) : ∃ x', s'.shared.tps[tp]? = some x' ∧ x'.url = x.url := by
  cases act with
  | spawn u =>
    obtain ⟨-, rfl⟩ := step_spawn h
    exact ⟨x, hx, rfl⟩
  | run i a =>
    obtain ⟨t, shared, t', new, ht, hn, rfl⟩ := step_run h
    exact url_section (next_section hn) hx

/-- What is listed stays so unless a notification takes its node away. -/
theorem listed_step (hs : Sound s) (ho : Orderly s act) (h : program.step s act = some s')
    {tp : Nat} {url : Bytes} (hl : Listed s.shared tp url) :
    Listed s'.shared tp url ∨ (Doomed s' tp ∧ (∃ i, act = .run i .apply) ∧
      url ∉ s.threads.filterMap clearedUrl) := by
  obtain hquiet | ⟨i, nodes, rfl, ht, hnodup, hcleared, -, hshared, t, ht', rfl⟩ |
    ⟨i, tp', url', -, -, hshared⟩ := connection_step hs.zk ho h
  · left
    rw [Listed, hquiet.transports]
    exact hl
  · obtain hgroup | ⟨hurl, hmissing⟩ := listed_or_missing hnodup hl
    · left
      rw [hshared]
      exact hgroup
    · exact .inr ⟨doomed_iff.mpr ⟨i, nodes, _, ht', hmissing⟩, ⟨i, rfl⟩,
        fun h => hurl (hcleared _ h)⟩
  · left
    rw [hshared]
    exact hl

/-- What is listed for a url is a transport with this url. -/
theorem named_step (hs : Sound s) (ho : Orderly s act) (h : program.step s act = some s')
    {tp : Nat} {url : Bytes} (hl : Listed s'.shared tp url) :
    ∃ x, s'.shared.tps[tp]? = some x ∧ x.url = url := by
  have hkept (hold : Listed s.shared tp url) : ∃ x, s'.shared.tps[tp]? = some x ∧ x.url = url := by
    obtain ⟨x, hx, hurl⟩ := hs.named tp url hold
    obtain ⟨x', hx', hurl'⟩ := url_step h hx
    exact ⟨x', hx', hurl'.trans hurl⟩
  obtain hquiet | ⟨i, nodes, rfl, ht, hnodup, -, -, hshared, -⟩ | ⟨i, tp', url', -, -, hshared⟩ :=
    connection_step hs.zk ho h
  · rw [Listed, hquiet.transports] at hl
    exact hkept hl
  · rw [hshared] at hl ⊢
    obtain hold | hnew := (handled_reconcile s.shared nodes hnodup).value url tp hl
    · rw [← hshared]
      exact hkept hold
    · exact hnew
  · rw [hshared] at hl
    exact hkept hl

/-- Nobody acted for a transport of a url that comes, so who acts for one still acts for the
listed one. -/
theorem attached_step (hs : Sound s) (ho : Orderly s act) (h : program.step s act = some s')
    {i tp : Nat} {t : Thread} (hi : s.threads[i]? = some t) (ht : actsFor t = some tp) :
    Attached s'.shared tp := by
  obtain ⟨x, hx, hlisted⟩ := hs.acting i t tp hi ht
  obtain ⟨x', hx', hurl⟩ := url_step h hx
  refine ⟨x', hx', ?_⟩
  rw [hurl]
  intro hmem
  obtain hquiet | ⟨k, nodes, rfl, hk, hnodup, -, hvacant, hshared, -⟩ |
    ⟨k, tp', url', -, -, hshared⟩ :=
    connection_step hs.zk ho h
  · rw [hquiet.transports] at hmem
    rw [Listed, hquiet.transports]
    exact hlisted hmem
  · rw [hshared] at hmem ⊢
    have hnode := (mem_reconcile s.shared nodes x.url).mp hmem
    by_cases hold : x.url ∈ s.shared.transports
    · obtain hgroup | ⟨hout, -⟩ := listed_or_missing hnodup (hlisted hold)
      · exact hgroup
      · exact absurd hnode hout
    · exact absurd rfl (hvacant _ hnode hold t (List.mem_of_getElem? hi) tp ht x hx)
  · rw [hshared] at hmem ⊢
    exact hlisted hmem

/-- A handler starts attempts for listed transports. -/
theorem new_listed (hs : Sound s) {i : Nat} {a : Label} {t t' : Thread} {shared : ServerFinder}
    {new : List Thread} (ho : Orderly s (.run i a)) (ht : s.threads[i]? = some t)
    (hn : program.next s.shared i t a = some (shared, t', new)) {tp : Nat} {url : Bytes}
    (hnew : .retry tp url .connecting ∈ new) : Listed shared tp url := by
  obtain ⟨nodes, rfl, rfl, htoken, hstarted, rfl⟩ |
    ⟨ec, elsewhere, x, rfl, rfl, hx, hwants, rfl, rfl⟩ | ⟨rfl, rfl⟩ :=
    started_section (next_section hn) hnew
  · have hnodup := (ho _ ht htoken).1
    obtain ⟨tp', url', he, -, hvalue, -⟩ :=
      (handled_reconcile s.shared nodes hnodup).started _ hstarted
    cases he
    exact hvalue
  · have hmem : x.url ∈ s.shared.transports := by
      simpa [ServerFinder.wants, hs.zk] using hwants
    obtain ⟨y, hy, hlisted⟩ := hs.acting i _ tp ht rfl
    obtain rfl : x = y := Option.some.inj (hx.symm.trans hy)
    exact hlisted hmem
  · exact hs.cleared i tp url .going ht rfl

theorem startsListed_step (hs : Sound s) (ho : Orderly s act) (h : program.step s act = some s') :
    StartsListed s s' := by
  intro tp url hmem
  cases act with
  | spawn u =>
    obtain ⟨hstart, rfl⟩ := step_spawn h
    rw [List.drop_left, List.mem_singleton] at hmem
    subst hmem
    cases hstart
  | run i a =>
    obtain ⟨t, shared, t', new, ht, hn, rfl⟩ := step_run h
    rw [List.drop_left' (List.length_set ..)] at hmem
    exact new_listed hs ho ht hn hmem

theorem urls_step (hs : Sound s) (ho : Orderly s act) (h : program.step s act = some s') (i : Nat)
    (tp : Nat) (url : Bytes) (pc : RetryPc) (ht : s'.threads[i]? = some (.retry tp url pc)) :
    ∃ x, s'.shared.tps[tp]? = some x ∧ x.url = url := by
  have hkept {j : Nat} {pc₀ : RetryPc} (hj : s.threads[j]? = some (.retry tp url pc₀)) :
      ∃ x, s'.shared.tps[tp]? = some x ∧ x.url = url := by
    obtain ⟨x, hx, hurl⟩ := hs.urls j tp url pc₀ hj
    obtain ⟨x', hx', hurl'⟩ := url_step h hx
    exact ⟨x', hx', hurl'.trans hurl⟩
  obtain ⟨hsame, -⟩ | ⟨a, u, new, -, hu, hn⟩ | ⟨-, -, hstart⟩ |
    ⟨-, k, a, u, u', new, rfl, hu, hn, hnew⟩ := thread_step_back h ht
  · exact hkept hsame
  · obtain ⟨pc₀, rfl, -⟩ := retry_section (next_section hn)
    exact hkept hu
  · cases hstart
  · obtain ⟨tp', url', he⟩ := new_section (next_section hn) _ hnew
    cases he
    exact named_step hs ho h (new_listed hs ho hu hn hnew)

/-- A connection that breaks is established, so its transport is listed if its url is. -/
theorem attached_spawn (hs : Sound s) {t : Thread} (hstart : isStart t = true)
    (ho : OrderlySpawn s t) {tp : Nat} (htp : actsFor t = some tp) : Attached s.shared tp := by
  unfold isStart at hstart
  split at hstart
  · cases htp
  · cases htp
    obtain ⟨x, hx, hbroken⟩ := (Option.any_eq_true _ _).mp ho
    refine ⟨x, hx, ?_⟩
    intro hmem
    obtain hlisted | hdoomed := hs.estab tp x hx (of_decide_eq_true hbroken hmem)
    · exact hlisted
    · obtain ⟨y, hy, hgone⟩ := hs.gone tp hdoomed
      obtain rfl : x = y := Option.some.inj (hx.symm.trans hy)
      exact absurd hmem hgone
  · cases htp
  · cases htp
  · cases hstart

theorem acting_step (hs : Sound s) (ho : Orderly s act) (h : program.step s act = some s')
    (i : Nat) (t : Thread) (tp : Nat) (hi : s'.threads[i]? = some t) (htp : actsFor t = some tp) :
    Attached s'.shared tp := by
  obtain ⟨hsame, -⟩ | ⟨a, u, new, -, hu, hn⟩ | ⟨-, rfl, hstart⟩ |
    ⟨-, k, a, u, u', new, rfl, hu, hn, hnew⟩ := thread_step_back h hi
  · exact attached_step hs ho h hsame htp
  · exact attached_step hs ho h hu (actsFor_section (next_section hn) htp)
  · obtain ⟨-, rfl⟩ := step_spawn h
    exact attached_spawn hs hstart ho htp
  · obtain ⟨tp', url, rfl⟩ := new_section (next_section hn) _ hnew
    cases htp
    have hlisted := new_listed hs ho hu hn hnew
    obtain ⟨x, hx, rfl⟩ := named_step hs ho h hlisted
    exact ⟨x, hx, fun _ => hlisted⟩

/-- The node of a cleared attempt stays listed, so the attempt stays for the listed transport. -/
theorem cleared_step (hs : Sound s) (ho : Orderly s act) (h : program.step s act = some s')
    (i : Nat) (tp : Nat) (url : Bytes) (pc : RetryPc)
    (ht : s'.threads[i]? = some (.retry tp url pc)) (hpc : cleared pc = true) :
    Listed s'.shared tp url := by
  have hkept {pc₀ : RetryPc} (hi : s.threads[i]? = some (.retry tp url pc₀))
      (hpc₀ : cleared pc₀ = true) : Listed s'.shared tp url := by
    obtain hl | ⟨-, -, hout⟩ := listed_step hs ho h (hs.cleared i tp url pc₀ hi hpc₀)
    · exact hl
    · exact absurd (mem_clearedUrl hi hpc₀) hout
  obtain ⟨hsame, -⟩ | ⟨a, u, new, rfl, hu, hn⟩ | ⟨-, -, hstart⟩ |
    ⟨-, k, a, u, u', new, -, hu, hn, hnew⟩ := thread_step_back h ht
  · exact hkept hsame hpc
  · obtain ⟨pc₀, rfl, hcheck⟩ := retry_section (next_section hn)
    obtain hpc₀ | ⟨rfl, rfl, htoken, hwants⟩ := hcheck hpc
    · exact hkept hu hpc₀
    · have hmem : url ∈ s.shared.transports := by
        simpa [ServerFinder.wants, hs.zk] using hwants
      obtain ⟨x, hx, hlisted⟩ := hs.acting i _ tp hu rfl
      obtain ⟨y, hy, rfl⟩ := hs.urls i tp _ _ hu
      obtain rfl : x = y := Option.some.inj (hx.symm.trans hy)
      obtain hl | ⟨-, ⟨k, he⟩, -⟩ := listed_step hs ho h (hlisted hmem)
      · exact hl
      · cases he
  · cases hstart
  · obtain ⟨tp', url', he⟩ := new_section (next_section hn) _ hnew
    cases he
    cases hpc

theorem doomed_step (h : program.step s act = some s') {tp : Nat} (hd : Doomed s tp) :
    Doomed s' tp ∨ s'.shared = s.shared.shutdown tp := by
  obtain ⟨j, nodes, tps, hj, htp⟩ := doomed_iff.mp hd
  obtain ⟨hj', -⟩ | ⟨a, t', new, -, hn, hj'⟩ := thread_step h hj
  · exact .inl (doomed_iff.mpr ⟨j, nodes, tps, hj', htp⟩)
  · obtain ⟨tps', rfl, htp'⟩ | hshut := shutting_section (next_section hn) htp
    · exact .inl (doomed_iff.mpr ⟨j, nodes, tps', hj', htp'⟩)
    · exact .inr hshut

/-- The node of a transport that is about to be shut down does not return before that, since
the notification holds the mutex until then. -/
theorem gone_step (hs : Sound s) (he : Exclusive s) (ho : Orderly s act)
    (h : program.step s act = some s') {tp : Nat} (hd : Doomed s' tp) :
    ∃ x, s'.shared.tps[tp]? = some x ∧ x.url ∉ s'.shared.transports := by
  have hkept (hd : Doomed s tp) (htransports : s'.shared.transports = s.shared.transports) :
      ∃ x, s'.shared.tps[tp]? = some x ∧ x.url ∉ s'.shared.transports := by
    obtain ⟨x, hx, hgone⟩ := hs.gone tp hd
    obtain ⟨x', hx', hurl⟩ := url_step h hx
    exact ⟨x', hx', by rwa [hurl, htransports]⟩
  obtain ⟨j, nodes, tps, hj, htp⟩ := doomed_iff.mp hd
  obtain ⟨hsame, hother⟩ | ⟨a, u, new, rfl, hu, hn⟩ | ⟨-, -, hstart⟩ |
    ⟨-, k, a, u, u', new, -, hu, hn, hnew⟩ := thread_step_back h hj
  · have hold : Doomed s tp := doomed_iff.mpr ⟨j, nodes, tps, hsame, htp⟩
    obtain hquiet | ⟨k, nodes', rfl, hk, -⟩ | ⟨k, tp', url, -, -, hshared⟩ :=
      connection_step hs.zk ho h
    · exact hkept hold hquiet.transports
    · have hne : k ≠ j := by
        rintro rfl
        exact hother .apply rfl
      cases he.alone hk hsame rfl hne
    · exact hkept hold (by rw [hshared]; rfl)
  · obtain ⟨tps', rfl, htp', htransports⟩ | ⟨rfl, rfl, htoken, hmissing, htransports⟩ :=
      shutting_back (next_section hn) htp
    · exact hkept (doomed_iff.mpr ⟨j, nodes, tps', hu, htp'⟩) htransports
    · obtain ⟨url, hlisted, hout⟩ := listed_of_missing (ho _ hu htoken).1 hmissing
      obtain ⟨x, hx, rfl⟩ := hs.named tp url hlisted
      obtain ⟨x', hx', hurl⟩ := url_step h hx
      refine ⟨x', hx', ?_⟩
      rw [hurl, htransports, mem_reconcile]
      exact hout
  · cases hstart
  · obtain ⟨tp', url', hretry⟩ := new_section (next_section hn) _ hnew
    cases hretry

/-- Whoever is established after the step was so before or has just connected. -/
theorem estab_back (hs : Sound s) (ho : Orderly s act) (h : program.step s act = some s') {tp : Nat}
    {x : Transport} (hx : s'.shared.tps[tp]? = some x) (he : x.estab = true) :
    Listed s.shared tp x.url ∨ Doomed s tp := by
  obtain hquiet | ⟨i, nodes, rfl, ht, hnodup, -, -, hshared, -⟩ | ⟨i, k, url, ht, hwhen, hshared⟩ :=
    connection_step hs.zk ho h
  · exact hs.estab tp x (hquiet.back tp x hx he) he
  · obtain ⟨fresh, htps, hfresh⟩ := (handled_reconcile s.shared nodes hnodup).made
    rw [hshared] at hx
    dsimp only at hx
    rw [htps, List.getElem?_append] at hx
    split at hx
    · exact hs.estab tp x hx he
    · rw [hfresh x (List.mem_of_getElem? hx)] at he
      cases he
  · by_cases hk : k = tp
    · subst hk
      obtain ⟨y, hy, rfl⟩ := hs.urls i k url .connecting ht
      have hxy : x.url = y.url := by
        simp only [hshared, ServerFinder.connected, ServerFinder.setTransport,
          List.getElem?_modify, hy] at hx
        cases hx
        simp
      obtain hmem | hdoomed := hwhen
      · obtain ⟨z, hz, hlisted⟩ := hs.acting i _ k ht rfl
        obtain rfl : y = z := Option.some.inj (hy.symm.trans hz)
        exact .inl (hxy ▸ hlisted hmem)
      · exact .inr hdoomed
    · have hold : s.shared.tps[tp]? = some x := by
        simpa [hshared, ServerFinder.connected, ServerFinder.setTransport, hk] using hx
      exact hs.estab tp x hold he

theorem sound_step (hs : Sound s) (he : Exclusive s) (ho : Orderly s act)
    (h : program.step s act = some s') : Sound s' where
  zk := by
    obtain hquiet | ⟨i, nodes, -, -, -, -, -, hshared, -⟩ | ⟨i, tp, url, -, -, hshared⟩ :=
      connection_step hs.zk ho h
    · exact hquiet.mode.trans hs.zk
    · obtain ⟨group, tps, hfinder⟩ := finder_foldl nodes ⟨s.shared, ∅, []⟩
      rw [hshared, reconcile, hfinder]
      exact hs.zk
    · rw [hshared]
      exact hs.zk
  named _ _ := named_step hs ho h
  urls := urls_step hs ho h
  acting := acting_step hs ho h
  cleared := cleared_step hs ho h
  estab := by
    intro tp x hx he
    obtain hl | hd := estab_back hs ho h hx he
    · obtain hl' | ⟨hd', -⟩ := listed_step hs ho h hl
      · exact .inl hl'
      · exact .inr hd'
    · obtain hd' | hshut := doomed_step h hd
      · exact .inr hd'
      · rw [hshut] at hx
        simp only [ServerFinder.shutdown, ServerFinder.setTransport, List.getElem?_modify,
          if_true] at hx
        obtain ⟨y, -, rfl⟩ := Option.map_eq_some_iff.mp hx
        cases he
  gone _ := gone_step hs he ho h

theorem sound_start (onDisconnect : Bool) (url : Bytes) : Sound (start onDisconnect .zk url) where
  zk := rfl
  named := by simp [start, Listed]
  urls := by simp [start]
  acting := by simp [start]
  cleared := by simp [start]
  estab := by simp [start]
  gone := by simp [start, Doomed]

theorem sound_run {onDisconnect : Bool} {url : Bytes} {acts : List (Action Thread Label)}
    (ho : Guarded program.step Orderly (start onDisconnect .zk url) acts)
    (h : run program.step (start onDisconnect .zk url) acts = some s) : Sound s := by
  have hboth : Sound s ∧ Exclusive s := by
    refine guarded_invariant (I := fun s => Sound s ∧ Exclusive s)
      ⟨sound_start onDisconnect url, exclusive_start onDisconnect .zk url⟩ ?_ ho h
    rintro m act m' ⟨hs, he⟩ hact hstep
    exact ⟨sound_step hs he hact hstep, exclusive_step he hstep⟩
  exact hboth.1

/-- In an orderly run every attempt is started for the listed transport of its url, and
when everything has come to rest only listed transports are established. -/
theorem only_listed (onDisconnect : Bool) (url : Bytes) (acts : List (Action Thread Label))
    (s : State) (ho : Guarded program.step Orderly (start onDisconnect .zk url) acts)
    (h : run program.step (start onDisconnect .zk url) acts = some s) :
    (∀ pre act post m m', acts = pre ++ act :: post →
      run program.step (start onDisconnect .zk url) pre = some m →
      program.step m act = some m' → StartsListed m m') ∧
    (AtRest s →
      ∀ tp x, s.shared.tps[tp]? = some x → x.estab = true → Listed s.shared tp x.url) := by
  constructor
  · intro pre act post m m' hacts hm hstep
    subst hacts
    exact startsListed_step (sound_run ho.left hm) (ho pre act post m rfl hm) hstep
  · intro hrest tp x hx he
    obtain hl | hd := (sound_run ho h).estab tp x hx he
    · exact hl
    · obtain ⟨i, nodes, tps, hi, -⟩ := doomed_iff.mp hd
      cases hrest _ (List.mem_of_getElem? hi)

/-- A node comes up and its transport connects. -/
def upRun : List (Action Thread Label) :=
  [.spawn (.childs [[65]] .notified), .run 0 .tryLock, .run 0 .apply, .run 0 .unlock,
    .run 1 (.connect .ok)]

/-- The connection breaks, and the first attempt to connect again fails. -/
def brokenRun : List (Action Thread Label) :=
  upRun ++ [.spawn (.disc 0 ⟨1, .system⟩ .broken), .run 2 .drop, .run 2 .tryLock,
    .run 2 (.check true), .run 2 .call, .run 2 .unlock, .run 3 (.connect ⟨1, .system⟩),
    .run 3 .wake, .run 3 .tryLock, .run 3 .decide, .run 3 .unlock]

/-- The next attempt succeeds, the node leaves and its transport is shut down, which calls
`OnDisconnected`, and then the node returns and gets another transport. -/
def backRun : List (Action Thread Label) :=
  [.run 4 (.connect .ok),
    .spawn (.childs [] .notified), .run 5 .tryLock, .run 5 .apply, .run 5 .shutdown, .run 5 .unlock,
    .spawn (.disc 0 ⟨1, .system⟩ .broken), .run 6 .drop, .run 6 .tryLock, .run 6 (.check true),
    .run 6 .call, .run 6 .unlock,
    .spawn (.childs [[65]] .notified), .run 7 .tryLock, .run 7 .apply, .run 7 .unlock,
    .run 8 (.connect .ok)]

theorem back_listed : ∃ m m' s, run program.step (start true .zk []) brokenRun = some m ∧
    program.step m (.run 3 .go) = some m' ∧ run program.step m' backRun = some s ∧
    m'.threads.drop m.threads.length = [.retry 0 (zookeeperNode2Url [65]) .connecting] ∧
    s.shared.tps.map (fun x => (x.estab, x.shutdowns)) = [(false, 1), (true, 0)] ∧
    StartsListed m m' ∧
    ∀ tp x, s.shared.tps[tp]? = some x → x.estab = true → Listed s.shared tp x.url := by
  obtain ⟨m, hm, hgo⟩ := run_exists program.step (start true .zk []) brokenRun
    (fun m => (program.step m (.run 3 .go)).any fun m' =>
      m'.threads.drop m.threads.length = [.retry 0 (zookeeperNode2Url [65]) .connecting])
    (by decide +kernel)
  obtain ⟨m', hm', hnew⟩ := (Option.any_eq_true _ _).mp hgo
  obtain ⟨s, hs, hrest⟩ := run_exists program.step (start true .zk [])
    (brokenRun ++ .run 3 .go :: backRun)
    (fun s => s.threads.all resting ∧
      s.shared.tps.map (fun x => (x.estab, x.shutdowns)) = [(false, 1), (true, 0)])
    (by decide +kernel)
  obtain ⟨hrest, htps⟩ := of_decide_eq_true hrest
  have hback : run program.step m' backRun = some s := by
    rwa [run_append, hm, Option.bind_some, run_cons, hm', Option.bind_some] at hs
  obtain ⟨hstarts, hlisted⟩ := only_listed true [] (brokenRun ++ .run 3 .go :: backRun) s
    (by decide +kernel) hs
  exact ⟨m, m', s, hm, hm', hback, of_decide_eq_true hnew, htps,
    hstarts brokenRun (.run 3 .go) backRun m m' rfl hm hm', hlisted (List.all_eq_true.mp hrest)⟩

/-- The node leaves and returns before the handler of a disconnect gets the mutex. -/
def returnRun : List (Action Thread Label) :=
  upRun ++ [.spawn (.disc 0 ⟨1, .system⟩ .broken), .run 2 .drop,
    .spawn (.childs [] .notified), .run 3 .tryLock, .run 3 .apply, .run 3 .shutdown, .run 3 .unlock,
    .spawn (.childs [[65]] .notified), .run 4 .tryLock, .run 4 .apply, .run 4 .unlock,
    .run 5 (.connect .ok), .run 2 .tryLock, .run 2 (.check true), .run 2 .call, .run 2 .unlock,
    .run 6 (.connect .ok)]

/-- Both transports of the node end up connected. -/
theorem return_not_listed : ¬ ∀ (acts : List (Action Thread Label)) (s : State),
    run program.step (start false .zk []) acts = some s → AtRest s →
    ∀ tp x, s.shared.tps[tp]? = some x → x.estab = true → Listed s.shared tp x.url := by
  intro hall
  obtain ⟨s, hs, hrest⟩ := run_exists program.step (start false .zk []) returnRun
    (fun s => s.threads.all resting ∧
      s.shared.tps[0]?.any (fun x => x.estab ∧ ¬ Listed s.shared 0 x.url))
    (by decide +kernel)
  obtain ⟨hrest, hstale⟩ := of_decide_eq_true hrest
  obtain ⟨x, hx, hbad⟩ := (Option.any_eq_true _ _).mp hstale
  obtain ⟨hestab, hbad⟩ := of_decide_eq_true hbad
  exact hbad (hall returnRun s hs (List.all_eq_true.mp hrest) 0 x hx hestab)

end Runs

end Ucorf.FinderConnections
