import Ucorf.Conhash

/-!
# The routing has no memory

Where no two codes and no two points fall together, the points of a key are its own:
`insert` finds all of them free and `erase` frees all of them. So the keys that a table
holds determine it, and two clients that hold the same keys route alike.
-/
namespace Ucorf.ConhashHistory

open Ucorf.Message
open Ucorf.Conhash

section Keys

variable {K V : Type}

/-- The hash code of the string that the loop of `insert` makes for `i`. -/
def virPoint (hash : Hash K) (key : K) (i : Nat) : Nat :=
  hash.string (Decimal.ofNat (hash.key key) ++ 45 :: Decimal.ofNat i)

/-- Keys with their values and virtual counts, whose codes and points are distinct. -/
structure Roster (hash : Hash K) (V : Type) where
  keys : Set K
  value : K → V
  virCount : K → Nat
  codes : ∀ k ∈ keys, ∀ k' ∈ keys, hash.key k = hash.key k' → k = k'
  distinct : ∀ k ∈ keys, ∀ k' ∈ keys, ∀ i < virCount k, ∀ j < virCount k',
    virPoint hash k i = virPoint hash k' j → k = k' ∧ i = j

inductive Change (K : Type) where
  | insert : K → Change K
  | erase : K → Change K

def Change.key : Change K → K
  | .insert key => key
  | .erase key => key

variable {hash : Hash K}

def Roster.points (r : Roster hash V) (key : K) : List Nat :=
  (List.range (r.virCount key)).map (virPoint hash key)

/-- A key is always inserted with its own value and count. -/
def Roster.op (r : Roster hash V) : Change K → Op K V
  | .insert key => .insert key (r.value key) (r.virCount key)
  | .erase key => .erase key

def Roster.reached (r : Roster hash V) (changes : List (Change K)) : ConHashtable V :=
  Conhash.reached hash (changes.map r.op)

/-- The table holds the key. -/
def Present (hash : Hash K) (t : ConHashtable V) (key : K) : Prop := hash.key key ∈ t.virTable

/-- The last change of the key is an insert. -/
def insertedLast [DecidableEq K] (key : K) (changes : List (Change K)) : Bool :=
  changes.foldl (fun inserted change =>
    match change with
    | .insert k => inserted || k = key
    | .erase k => inserted && k ≠ key) false

theorem mem_points {r : Roster hash V} {key : K} {p : Nat} :
    p ∈ r.points key ↔ ∃ i < r.virCount key, virPoint hash key i = p := by
  simp [Roster.points]

end Keys

section Steps

variable {K V : Type} {hash : Hash K} {r : Roster hash V} {t : ConHashtable V}

/-- Every list is that of a key, and the table has the key's value at its points. -/
def Owned (r : Roster hash V) (t : ConHashtable V) : Prop :=
  ∀ (c : Nat) (l : List Nat), t.virTable[c]? = some l →
    ∃ key ∈ r.keys, hash.key key = c ∧ l = r.points key ∧ ∀ p ∈ l, t.table[p]? = some (r.value key)

theorem insertPoints_succ (table : Std.ExtTreeMap Nat V) (key : K) (value : V) (n : Nat) :
    insertPoints hash table (hash.key key) value (n + 1) =
      let st := insertPoints hash table (hash.key key) value n
      if st.1.contains (virPoint hash key n) then st
      else (st.1.insert (virPoint hash key n) value, st.2 ++ [virPoint hash key n]) := by
  unfold insertPoints
  rw [List.range_succ, List.foldl_append]
  rfl

theorem not_contains_iff {W : Type} {m : Std.ExtTreeMap Nat W} {k : Nat} :
    ¬ m.contains k = true ↔ m[k]? = none := by
  simp

/-- The loop of `insert` takes every point that is free. -/
theorem mem_insertPoints {table : Std.ExtTreeMap Nat V} {key : K} {value : V}
    {i n : Nat} (hlt : i < n)
    (hfree : table[virPoint hash key i]? = none) :
    virPoint hash key i ∈ (insertPoints hash table (hash.key key) value n).2 := by
  induction n with
  | zero => omega
  | succ n ih =>
    rw [insertPoints_succ]
    dsimp only
    by_cases hi : i = n
    · subst hi
      split
      · rename_i hcontains
        by_contra hnot
        have hlookup :=
          (grown_insertPoints hash table (hash.key key) value i).lookup (virPoint hash key i)
        rw [if_neg hnot, hfree] at hlookup
        exact not_contains_iff.mpr hlookup hcontains
      · exact List.mem_append_right _ (List.mem_singleton_self _)
    · have hmem := ih (by omega)
      split
      · exact hmem
      · exact List.mem_append_left _ hmem

/-- It takes points of the key only. -/
theorem of_mem_insertPoints {table : Std.ExtTreeMap Nat V} {key : K} {value : V} {n p : Nat}
    (hp : p ∈ (insertPoints hash table (hash.key key) value n).2) :
    ∃ i < n, virPoint hash key i = p := by
  induction n with
  | zero => cases hp
  | succ n ih =>
    have hold (hp : p ∈ (insertPoints hash table (hash.key key) value n).2) :
        ∃ i < n + 1, virPoint hash key i = p := by
      obtain ⟨i, hi, heq⟩ := ih hp
      exact ⟨i, by omega, heq⟩
    rw [insertPoints_succ] at hp
    dsimp only at hp
    split at hp
    · exact hold hp
    · obtain hp | hp := List.mem_append.mp hp
      · exact hold hp
      · exact ⟨n, by omega, (List.mem_singleton.mp hp).symm⟩

/-- Where all points are free and distinct, it takes them in order. -/
theorem insertPoints_free {table : Std.ExtTreeMap Nat V} {key : K} {value : V} {n : Nat}
    (hfree : ∀ i < n, table[virPoint hash key i]? = none)
    (hinj : ∀ i < n, ∀ j < n, virPoint hash key i = virPoint hash key j → i = j) :
    (insertPoints hash table (hash.key key) value n).2 =
      (List.range n).map (virPoint hash key) := by
  induction n with
  | zero => rfl
  | succ n ih =>
    have hlist :=
      ih (fun i hi => hfree i (by omega)) (fun i hi j hj => hinj i (by omega) j (by omega))
    have hnot : virPoint hash key n ∉ (insertPoints hash table (hash.key key) value n).2 := by
      intro hp
      obtain ⟨i, hi, heq⟩ := of_mem_insertPoints hp
      have hin := hinj i (by omega) n (by omega) heq
      omega
    have hnone :=
      (grown_insertPoints hash table (hash.key key) value n).lookup (virPoint hash key n)
    rw [if_neg hnot, hfree n (by omega)] at hnone
    rw [insertPoints_succ]
    dsimp only
    rw [if_neg (not_contains_iff.mpr hnone), hlist, List.range_succ, List.map_append]
    rfl

/-- The points of an absent key are free. -/
theorem free_of_absent (hi : Inv t) (ho : Owned r t) {key : K} (hkey : key ∈ r.keys)
    (habsent : t.virTable[hash.key key]? = none) :
    ∀ i < r.virCount key, t.table[virPoint hash key i]? = none := by
  intro i hlt
  by_contra hne
  obtain ⟨v, hv⟩ := Option.ne_none_iff_exists'.mp hne
  obtain ⟨c, l, hl, hp⟩ := (hi.owned _).mp (mem_iff.mpr ⟨v, hv⟩)
  obtain ⟨k, hk, rfl, rfl, -⟩ := ho c l hl
  obtain ⟨j, hj, heq⟩ := mem_points.mp hp
  obtain ⟨rfl, -⟩ := r.distinct k hk key hkey j hj i hlt heq
  rw [habsent] at hl
  cases hl

theorem owned_insert (hi : Inv t) (ho : Owned r t) {key : K} (hkey : key ∈ r.keys) :
    Owned r (t.insert hash key (r.value key) (r.virCount key)).2 := by
  by_cases hsame : t.virTable[hash.key key]? ≠ none ∨
      (insertPoints hash t.table (hash.key key) (r.value key) (r.virCount key)).2 = []
  · rw [insert_same hsame]
    exact ho
  · obtain ⟨habsent, hne⟩ := not_or.mp hsame
    have habsent := not_not.mp habsent
    have hgrown := grown_insertPoints hash t.table (hash.key key) (r.value key) (r.virCount key)
    have hlist : (insertPoints hash t.table (hash.key key) (r.value key) (r.virCount key)).2 =
        (List.range (r.virCount key)).map (virPoint hash key) :=
          insertPoints_free (free_of_absent hi ho hkey habsent)
      (fun i hi j hj heq => (r.distinct key hkey key hkey i hi j hj heq).2)
    rw [insert_eq habsent hne]
    intro c l hl
    obtain ⟨rfl, rfl⟩ | hold := (list_inserted habsent).mp hl
    · refine ⟨key, hkey, rfl, hlist, ?_⟩
      intro p hp
      rw [hgrown.lookup, if_pos hp]
    · obtain ⟨k, hk, hcode, hpoints, hvalue⟩ := ho c l hold
      refine ⟨k, hk, hcode, hpoints, ?_⟩
      intro p hp
      rw [hgrown.lookup, if_neg (not_mem_grown hi hgrown hold hp)]
      exact hvalue p hp

theorem owned_erase (hi : Inv t) (ho : Owned r t) (key : K) : Owned r (t.erase hash key).2 := by
  unfold ConHashtable.erase
  cases hlist : t.virTable[hash.key key]? with
  | none => exact ho
  | some virList =>
    intro c l hl
    obtain ⟨hc, hl⟩ := list_erased.mp hl
    obtain ⟨k, hk, hcode, hpoints, hvalue⟩ := ho c l hl
    refine ⟨k, hk, hcode, hpoints, ?_⟩
    intro p hp
    rw [getElem?_erasePoints, if_neg (not_mem_erased hi hlist hc hl hp)]
    exact hvalue p hp

theorem present_iff_some {key : K} : Present hash t key ↔
    ∃ l, t.virTable[hash.key key]? = some l := mem_iff

theorem present_insert (hi : Inv t) (ho : Owned r t) {key other : K} (hkey : key ∈ r.keys)
    (hother : other ∈ r.keys) :
    Present hash (t.insert hash key (r.value key) (r.virCount key)).2 other ↔
      Present hash t other ∨ (other = key ∧ 0 < r.virCount key) := by
  by_cases hpresent : Present hash t key
  · have hsome : t.virTable[hash.key key]? ≠ none :=
    Option.ne_none_iff_exists'.mpr (present_iff_some.mp hpresent)
    rw [insert_same (.inl hsome)]
    constructor
    · exact .inl
    · rintro (h | ⟨rfl, -⟩)
      · exact h
      · exact hpresent
  · have habsent : t.virTable[hash.key key]? = none := Std.ExtTreeMap.getElem?_eq_none hpresent
    have hlist : (insertPoints hash t.table (hash.key key) (r.value key) (r.virCount key)).2 =
        (List.range (r.virCount key)).map (virPoint hash key) :=
          insertPoints_free (free_of_absent hi ho hkey habsent)
      (fun i hi j hj heq => (r.distinct key hkey key hkey i hi j hj heq).2)
    by_cases hnil : (insertPoints hash t.table (hash.key key) (r.value key) (r.virCount key)).2 = []
    · have hzero : r.virCount key = 0 := by simpa [hnil] using hlist
      rw [insert_same (.inr hnil), hzero]
      simp
    · have hpos : 0 < r.virCount key := by
        by_contra hzero
        rw [hlist, Nat.eq_zero_of_not_pos hzero] at hnil
        exact hnil rfl
      rw [insert_eq habsent hnil, present_iff_some, present_iff_some]
      simp only [list_inserted habsent]
      constructor
      · rintro ⟨l, ⟨hcode, -⟩ | hl⟩
        · exact .inr ⟨r.codes other hother key hkey hcode, hpos⟩
        · exact .inl ⟨l, hl⟩
      · rintro (⟨l, hl⟩ | ⟨rfl, -⟩)
        · exact ⟨l, .inr hl⟩
        · exact ⟨_, .inl ⟨rfl, rfl⟩⟩

theorem present_erase {key other : K} (hkey : key ∈ r.keys) (hother : other ∈ r.keys) :
    Present hash (t.erase hash key).2 other ↔ Present hash t other ∧ other ≠ key := by
  have hcode : hash.key key ≠ hash.key other ↔ other ≠ key := by
    constructor
    · rintro hne rfl
      exact hne rfl
    · intro hne heq
      exact hne (r.codes other hother key hkey heq.symm)
  unfold ConHashtable.erase
  cases hlist : t.virTable[hash.key key]? with
  | none =>
    constructor
    · intro h
      refine ⟨h, ?_⟩
      rintro rfl
      obtain ⟨l, hl⟩ := present_iff_some.mp h
      rw [hlist] at hl
      cases hl
    · exact fun h => h.1
  | some virList =>
    rw [present_iff_some, present_iff_some]
    simp only [list_erased, hcode]
    constructor
    · rintro ⟨l, hne, hl⟩
      exact ⟨⟨l, hl⟩, hne⟩
    · rintro ⟨⟨l, hl⟩, hne⟩
      exact ⟨l, hne, hl⟩

/-- The table has the values of the present keys at their points, and nothing else. -/
theorem table_iff (hi : Inv t) (ho : Owned r t) {p : Nat} {v : V} :
    t.table[p]? = some v ↔ ∃ key ∈ r.keys, Present hash t key ∧ p ∈ r.points key ∧
    r.value key = v := by
  constructor
  · intro hv
    obtain ⟨c, l, hl, hp⟩ := (hi.owned p).mp (mem_iff.mpr ⟨v, hv⟩)
    obtain ⟨key, hkey, rfl, rfl, hvalue⟩ := ho c l hl
    refine ⟨key, hkey, present_iff_some.mpr ⟨_, hl⟩, hp, ?_⟩
    exact Option.some.inj ((hvalue p hp).symm.trans hv)
  · rintro ⟨key, hkey, hpresent, hp, rfl⟩
    obtain ⟨l, hl⟩ := present_iff_some.mp hpresent
    obtain ⟨k, hk, hcode, rfl, hvalue⟩ := ho _ l hl
    obtain rfl := r.codes k hk key hkey hcode
    exact hvalue p hp

end Steps

section Runs

variable {K V : Type} {hash : Hash K} {r : Roster hash V} {changes changes' : List (Change K)}

theorem reached_concat (r : Roster hash V) (changes : List (Change K)) (change : Change K) :
    r.reached (changes ++ [change]) = step hash (r.reached changes) (r.op change) := by
  rw [Roster.reached, Conhash.reached, List.map_append, List.foldl_append]
  rfl

theorem owned_reached (h : ∀ change ∈ changes, change.key ∈ r.keys) :
    Owned r (r.reached changes) := by
  induction changes using List.reverseRecOn with
  | nil =>
    intro c l hl
    simp [Roster.reached, Conhash.reached, ConHashtable.empty] at hl
  | append_singleton changes change ih =>
    have ho := ih fun c hc => h c (List.mem_append_left _ hc)
    have hkey := h change (by simp)
    have hi : Inv (r.reached changes) := inv_reached hash _
    rw [reached_concat]
    cases change with
    | insert key => exact owned_insert hi ho hkey
    | erase key => exact owned_erase hi ho key

/-- Which keys the table holds is told by their last changes. -/
theorem present_iff [DecidableEq K] (h : ∀ change ∈ changes, change.key ∈ r.keys) {key : K}
    (hkey : key ∈ r.keys) :
    Present hash (r.reached changes) key ↔ insertedLast key changes = true ∧
    0 < r.virCount key := by
  induction changes using List.reverseRecOn with
  | nil => simp [Roster.reached, Conhash.reached, ConHashtable.empty, Present, insertedLast]
  | append_singleton changes change ih =>
    have hold : ∀ c ∈ changes, c.key ∈ r.keys := fun c hc => h c (List.mem_append_left _ hc)
    have hlast := h change (by simp)
    have hi : Inv (r.reached changes) := inv_reached hash _
    have ih := ih hold
    rw [reached_concat, insertedLast, List.foldl_append, ← insertedLast]
    cases change with
    | insert k =>
      have hstep := present_insert hi (owned_reached hold) (show k ∈ r.keys from hlast) hkey
      refine hstep.trans ?_
      rw [ih]
      by_cases hk : key = k
      · subst hk
        simp
      · simp [hk, Ne.symm hk]
    | erase k =>
      have hstep := present_erase (t := r.reached changes) (show k ∈ r.keys from hlast) hkey
      refine hstep.trans ?_
      rw [ih]
      by_cases hk : key = k
      · subst hk
        simp
      · simp [hk, Ne.symm hk]

/-- Tables that hold the same keys route every hash code to the same value. -/
theorem same_routes [Inhabited V] (r : Roster hash V) (changes changes' : List (Change K))
    (h : ∀ change ∈ changes, change.key ∈ r.keys) (h' : ∀ change ∈ changes', change.key ∈ r.keys)
    (hsame : ∀ key ∈ r.keys, Present hash (r.reached changes) key ↔
      Present hash (r.reached changes') key)
    (hashCode : Nat) : (r.reached changes).hget hashCode = (r.reached changes').hget hashCode := by
  have hi : Inv (r.reached changes) := inv_reached hash _
  have hi' : Inv (r.reached changes') := inv_reached hash _
  have htable : (r.reached changes).table = (r.reached changes').table := by
    apply Std.ExtTreeMap.ext_getElem?
    intro p
    apply Option.ext
    intro v
    rw [table_iff hi (owned_reached h), table_iff hi' (owned_reached h')]
    apply exists_congr
    intro key
    apply and_congr_right
    intro hkey
    rw [hsame key hkey]
  rw [ConHashtable.hget, ConHashtable.hget, ConHashtable.select, ConHashtable.select, htable]

def sampleHash : Hash Nat := ⟨id, fun s => s.foldl (fun n c => 256 * n + c.toNat) 0⟩

theorem sample_distinct : ∀ k ∈ [1, 2], ∀ k' ∈ [1, 2], ∀ i < 2, ∀ j < 2,
    virPoint sampleHash k i = virPoint sampleHash k' j → k = k' ∧ i = j := by
  decide

/-- Two keys with two points each. -/
def sampleRoster : Roster sampleHash Nat where
  keys := {k | k ∈ [1, 2]}
  value := fun k => 10 * k
  virCount := fun _ => 2
  codes := fun _ _ _ _ h => h
  distinct := sample_distinct

/-- Once in this order, and once in the other with a key taken out and inserted twice. -/
theorem same_routes_sample :
    (sampleRoster.reached [.insert 1, .insert 2]).hget 3 =
      (sampleRoster.reached
        [.insert 2, .erase 2, .erase 1, .insert 1, .insert 2, .insert 1]).hget 3 := by
  have hkeys : ∀ change ∈ [.insert 1, .insert 2], Change.key change ∈ sampleRoster.keys := by
    simp [Change.key, sampleRoster]
  have hkeys' : ∀ change ∈ [.insert 2, .erase 2, .erase 1, .insert 1, .insert 2, .insert 1],
      Change.key change ∈ sampleRoster.keys := by
    simp [Change.key, sampleRoster]
  refine same_routes sampleRoster _ _ hkeys hkeys' ?_ 3
  intro key hkey
  rw [present_iff hkeys hkey, present_iff hkeys' hkey]
  have hlast : ∀ k ∈ [1, 2], insertedLast k [.insert 1, .insert 2] =
      insertedLast k [.insert 2, .erase 2, .erase 1, .insert 1, .insert 2, .insert 1] := by
    decide
  rw [hlast key hkey]

end Runs

end Ucorf.ConhashHistory
