import Ucorf.Decimal
import Ucorf.Message
import Ucorf.Ring
import Mathlib.Data.List.Induction
import Std.Data.ExtTreeMap

/-!
# Consistent hashing

`con_hashtable` keeps the virtual points with their values in `table_`, and under each
original hash code the points that were free when its key came in `vir_table_`. Every
point is in the list of exactly one code, so the two maps are the points of a ring with
their owners, and `insert` and `erase` are the additions and removals of such a ring.
-/
namespace Ucorf.Conhash

open Ucorf.Message
open Ucorf.Ring

/-- `H<T>` for the keys and for the strings of the virtual points. -/
structure Hash (K : Type) where
  key : K → Nat
  string : Bytes → Nat

structure ConHashtable (V : Type) where
  table : Std.ExtTreeMap Nat V
  virTable : Std.ExtTreeMap Nat (List Nat)

section Operations

variable {K V : Type}

def ConHashtable.empty : ConHashtable V := ⟨∅, ∅⟩

/-- One iteration of the loop of `insert`: the table and `vir_list`. -/
def insertPoint (hash : Hash K) (oriStr : Bytes) (value : V)
    (st : Std.ExtTreeMap Nat V × List Nat) (i : Nat) :
    Std.ExtTreeMap Nat V × List Nat :=
  let str := oriStr ++ 45 :: Decimal.ofNat i
  let hashcode := hash.string str
  if st.1.contains hashcode then st else (st.1.insert hashcode value, st.2 ++ [hashcode])

def insertPoints (hash : Hash K) (table : Std.ExtTreeMap Nat V) (oriHashcode : Nat) (value : V)
    (virCount : Nat) :
    Std.ExtTreeMap Nat V × List Nat :=
  (List.range virCount).foldl (insertPoint hash (Decimal.ofNat oriHashcode) value) (table, [])

def ConHashtable.insert (hash : Hash K) (t : ConHashtable V) (key : K) (value : V)
    (virCount : Nat) :
    Nat × ConHashtable V :=
  let oriHashcode := hash.key key
  if t.virTable.contains oriHashcode then (0, t)
  else
    let st := insertPoints hash t.table oriHashcode value virCount
    let virTable := t.virTable.insert oriHashcode st.2
    if st.2.isEmpty then (0, ⟨st.1, virTable.erase oriHashcode⟩)
    else (st.2.length, ⟨st.1, virTable⟩)

def erasePoints (table : Std.ExtTreeMap Nat V) (virList : List Nat) : Std.ExtTreeMap Nat V :=
  virList.foldl (fun table hashcode => table.erase hashcode) table

def ConHashtable.erase (hash : Hash K) (t : ConHashtable V) (key : K) : Bool × ConHashtable V :=
  match t.virTable[hash.key key]? with
  | none => (false, t)
  | some virList => (true, ⟨erasePoints t.table virList, t.virTable.erase (hash.key key)⟩)

/-- `lower_bound`, or `begin` when it is `end`. -/
def ConHashtable.select (t : ConHashtable V) (hashCode : Nat) : Option (Nat × V) :=
  search t.table.toList hashCode

def ConHashtable.hget [Inhabited V] (t : ConHashtable V) (hashCode : Nat) : V :=
  match t.select hashCode with
  | none => default
  | some e => e.2

def ConHashtable.get [Inhabited V] (hash : Hash K) (t : ConHashtable V) (key : K) : V :=
  t.hget (hash.key key)

/-- The code whose list contains the point. -/
def ConHashtable.ownerOf (t : ConHashtable V) (point : Nat) : Option Nat :=
  (t.virTable.toList.find? fun e => e.2.contains point).map Prod.fst

/-- The owner of a hash code: the code whose list contains the point that `hget` selects. -/
def ConHashtable.owner (t : ConHashtable V) (hashCode : Nat) : Option Nat :=
  (t.select hashCode).bind fun e => t.ownerOf e.1

inductive Op (K V : Type) where
  | insert : K → V → Nat → Op K V
  | erase : K → Op K V

def step (hash : Hash K) (t : ConHashtable V) : Op K V → ConHashtable V
  | .insert key value virCount => (t.insert hash key value virCount).2
  | .erase key => (t.erase hash key).2

/-- What a sequence of operations makes of the empty table. -/
def reached (hash : Hash K) (ops : List (Op K V)) : ConHashtable V := ops.foldl (step hash) .empty

/-- The points as the two maps have them. -/
def ConHashtable.points (t : ConHashtable V) : Points Nat Nat V :=
  fun p => t.table[p]?.bind fun v => (t.ownerOf p).map fun c => (c, v)

/-- Every point is in the list of exactly one code. -/
structure Inv (t : ConHashtable V) : Prop where
  owned : ∀ p : Nat, p ∈ t.table ↔ ∃ (c : Nat) (l : List Nat), t.virTable[c]? = some l ∧ p ∈ l
  disjoint : ∀ (c c' : Nat) (l l' : List Nat) (p : Nat), t.virTable[c]? = some l →
    t.virTable[c']? = some l' → p ∈ l → p ∈ l' → c = c'
  nonempty : ∀ (c : Nat) l, t.virTable[c]? = some l → l ≠ []
  nodup : ∀ (c : Nat) l, t.virTable[c]? = some l → l.Nodup

end Operations

section Search

variable {V : Type} {t : ConHashtable V} {h p c : Nat} {v : V}

theorem ownerOf_eq_some (hi : Inv t) : t.ownerOf p = some c ↔
    ∃ l, t.virTable[c]? = some l ∧ p ∈ l := by
  constructor
  · intro h
    obtain ⟨e, hfind, rfl⟩ := Option.map_eq_some_iff.mp h
    have hmem := List.mem_of_find?_eq_some hfind
    have hcontains : e.2.contains p = true :=
      List.find?_some (p := fun e : Nat × List Nat => e.2.contains p) hfind
    exact ⟨e.2, Std.ExtTreeMap.mem_toList_iff_getElem?_eq_some.mp hmem,
      List.contains_iff_mem.mp hcontains⟩
  · rintro ⟨l, hl, hp⟩
    have hmem : (c, l) ∈ t.virTable.toList := Std.ExtTreeMap.mem_toList_iff_getElem?_eq_some.mpr hl
    cases hfind : t.virTable.toList.find? fun e => e.2.contains p with
    | none =>
      have hnone := List.find?_eq_none.mp hfind _ hmem
      exact absurd (List.contains_iff_mem.mpr hp) hnone
    | some e =>
      have hmem' :=
        Std.ExtTreeMap.mem_toList_iff_getElem?_eq_some.mp (List.mem_of_find?_eq_some hfind)
      have hcontains :=
        List.contains_iff_mem.mp
          (List.find?_some (p := fun e : Nat × List Nat => e.2.contains p) hfind)
      rw [ConHashtable.ownerOf, hfind, hi.disjoint c e.1 l e.2 p hl hmem' hp hcontains]
      rfl

theorem points_eq_some (hi : Inv t) :
    t.points p = some (c, v) ↔ t.table[p]? = some v ∧ ∃ l, t.virTable[c]? = some l ∧ p ∈ l := by
  rw [← ownerOf_eq_some hi, ConHashtable.points]
  cases t.table[p]? with
  | none => simp
  | some w =>
    cases t.ownerOf p with
    | none => simp
    | some d =>
      simp only [Option.bind_some, Option.map_some, Option.some.injEq, Prod.mk.injEq]
      exact and_comm

/-- The places of the ring are the keys of `table_`. -/
theorem places_points (hi : Inv t) : places t.points = {p | p ∈ t.table.toList.map Prod.fst} := by
  ext p
  have hkey : p ∈ t.table.toList.map Prod.fst ↔ p ∈ t.table := by
    rw [Std.ExtTreeMap.map_fst_toList_eq_keys, Std.ExtTreeMap.mem_keys]
  constructor
  · intro hp
    obtain ⟨⟨c, v⟩, hpoint⟩ := Option.isSome_iff_exists.mp hp
    obtain ⟨-, l, hl, hpl⟩ := (points_eq_some hi).mp hpoint
    exact hkey.mpr ((hi.owned p).mpr ⟨c, l, hl, hpl⟩)
  · intro hp
    obtain ⟨c, l, hl, hpl⟩ := (hi.owned p).mp (hkey.mp hp)
    obtain ⟨v, hv⟩ :=
      Option.isSome_iff_exists.mp (Std.ExtTreeMap.mem_iff_isSome_getElem?.mp (hkey.mp hp))
    exact Option.isSome_of_eq_some ((points_eq_some hi).mpr ⟨hv, l, hl, hpl⟩)

theorem sorted_toList (t : ConHashtable V) : t.table.toList.Pairwise fun a b => a.1 < b.1 :=
  Std.ExtTreeMap.ordered_keys_toList.imp Nat.compare_eq_lt.mp

/-- What `hget` finds and whom it belongs to are what the search on the ring finds. -/
theorem found_iff [Inhabited V] (hi : Inv t) :
    Found t.points h c v ↔ t.owner h = some c ∧ t.hget h = v := by
  cases hs : t.select h with
  | none =>
    have hempty := search_eq_none hs
    constructor
    · rintro ⟨p, hp, -⟩
      have hplace := hp.1
      rw [places_points hi, hempty] at hplace
      cases hplace
    · rintro ⟨howner, -⟩
      rw [ConHashtable.owner, hs] at howner
      cases howner
  | some e =>
    obtain ⟨hmem, hselects⟩ := search_selects (sorted_toList t) hs
    have hvalue : t.table[e.1]? = some e.2 := Std.ExtTreeMap.mem_toList_iff_getElem?_eq_some.mp hmem
    have hget : t.hget h = e.2 := by rw [ConHashtable.hget, hs]
    rw [← places_points hi] at hselects
    rw [hget, ConHashtable.owner, hs, Option.bind_some, ownerOf_eq_some hi]
    constructor
    · rintro ⟨p, hp, hpoint⟩
      rw [hp.unique hselects] at hpoint
      obtain ⟨hv, hl⟩ := (points_eq_some hi).mp hpoint
      rw [hvalue] at hv
      exact ⟨hl, Option.some.inj hv⟩
    · rintro ⟨hl, rfl⟩
      exact ⟨e.1, hselects, (points_eq_some hi).mpr ⟨hvalue, hl⟩⟩

/-- What `hget` gives is the value of a point, if there is one. -/
theorem hget_cases [Inhabited V] (t : ConHashtable V) (h : Nat) :
    (t.table.toList = [] ∧ t.hget h = default) ∨ ∃ p : Nat, t.table[p]? = some (t.hget h) := by
  cases hs : t.select h with
  | none => exact .inl ⟨search_eq_none hs, by rw [ConHashtable.hget, hs]⟩
  | some e =>
    obtain ⟨hmem, -⟩ := search_selects (sorted_toList t) hs
    right
    refine ⟨e.1, ?_⟩
    rw [Std.ExtTreeMap.mem_toList_iff_getElem?_eq_some.mp hmem, ConHashtable.hget, hs]

/-- A point is found from its own place. -/
theorem hget_point [Inhabited V] (hv : t.table[p]? = some v) : t.hget p = v := by
  have hmem : (p, v) ∈ t.table.toList := Std.ExtTreeMap.mem_toList_iff_getElem?_eq_some.mpr hv
  cases hs : t.select p with
  | none =>
    rw [search_eq_none hs] at hmem
    cases hmem
  | some e =>
    obtain ⟨hmem', hselects⟩ := search_selects (sorted_toList t) hs
    have hplace : p ∈ t.table.toList.map Prod.fst := List.mem_map.mpr ⟨_, hmem, rfl⟩
    have hself : Selects {q | q ∈ t.table.toList.map Prod.fst} p p :=
      ⟨hplace, .inl ⟨Nat.le_refl p, fun q _ hle => hle⟩⟩
    have hvalue := Std.ExtTreeMap.mem_toList_iff_getElem?_eq_some.mp hmem'
    rw [hselects.unique hself, hv] at hvalue
    rw [ConHashtable.hget, hs]
    exact (Option.some.inj hvalue).symm

/-- Without an owner there is no point and `hget` gives the default. -/
theorem owner_eq_none [Inhabited V] (hi : Inv t) (howner : t.owner h = none) :
    t.table.toList = [] ∧ t.hget h = default := by
  cases hs : t.select h with
  | none => exact ⟨search_eq_none hs, by rw [ConHashtable.hget, hs]⟩
  | some e =>
    obtain ⟨hmem, -⟩ := search_selects (sorted_toList t) hs
    have hkey : e.1 ∈ t.table := Std.ExtTreeMap.mem_iff_isSome_getElem?.mpr
      (Option.isSome_of_eq_some (Std.ExtTreeMap.mem_toList_iff_getElem?_eq_some.mp hmem))
    obtain ⟨c, hl⟩ := (hi.owned e.1).mp hkey
    have hfound := (ownerOf_eq_some hi).mpr hl
    rw [ConHashtable.owner, hs, Option.bind_some, hfound] at howner
    cases howner

end Search

section Updates

variable {K V : Type} {hash : Hash K} {t : ConHashtable V}

theorem getElem?_insert {W : Type} (m : Std.ExtTreeMap Nat W) (k : Nat) (w : W) (a : Nat) :
    (m.insert k w)[a]? = if k = a then some w else m[a]? := by
  rw [Std.ExtTreeMap.getElem?_insert]
  simp only [Nat.compare_eq_eq]

theorem getElem?_erase {W : Type} (m : Std.ExtTreeMap Nat W) (k a : Nat) :
    (m.erase k)[a]? = if k = a then none else m[a]? := by
  rw [Std.ExtTreeMap.getElem?_erase]
  simp only [Nat.compare_eq_eq]

theorem mem_iff {W : Type} {m : Std.ExtTreeMap Nat W} {k : Nat} : k ∈ m ↔ ∃ w, m[k]? = some w := by
  rw [Std.ExtTreeMap.mem_iff_isSome_getElem?, Option.isSome_iff_exists]

/-- The loop of `insert` from `table`, with the points that it has added. -/
structure Grown (table : Std.ExtTreeMap Nat V) (value : V)
    (st : Std.ExtTreeMap Nat V × List Nat) : Prop where
  lookup : ∀ p : Nat, st.1[p]? = if p ∈ st.2 then some value else table[p]?
  fresh : ∀ p ∈ st.2, table[p]? = none
  nodup : st.2.Nodup

theorem grown_insertPoint {table : Std.ExtTreeMap Nat V} {value : V}
    {st : Std.ExtTreeMap Nat V × List Nat}
    (hg : Grown table value st) (oriStr : Bytes) (i : Nat) :
    Grown table value (insertPoint hash oriStr value st i) := by
  unfold insertPoint
  dsimp only
  generalize hash.string (oriStr ++ 45 :: Decimal.ofNat i) = code
  split
  · exact hg
  · rename_i hfree
    have hnone : st.1[code]? = none := by simpa using hfree
    have hnot : code ∉ st.2 := by
      intro hmem
      have hlookup := hg.lookup code
      rw [if_pos hmem, hnone] at hlookup
      cases hlookup
    have htable : table[code]? = none := by
      have hlookup := hg.lookup code
      rwa [if_neg hnot, hnone, eq_comm] at hlookup
    constructor
    · intro p
      rw [getElem?_insert, hg.lookup p]
      by_cases hp : code = p
      · simp [hp]
      · simp [hp, Ne.symm hp]
    · intro p hp
      obtain hp | hp := List.mem_append.mp hp
      · exact hg.fresh p hp
      · rw [List.mem_singleton.mp hp, htable]
    · rw [List.nodup_append]
      refine ⟨hg.nodup, List.pairwise_singleton _ code, ?_⟩
      rintro p hp q hq rfl
      exact hnot (List.mem_singleton.mp hq ▸ hp)

theorem grown_insertPoints (hash : Hash K) (table : Std.ExtTreeMap Nat V)
    (oriHashcode : Nat) (value : V)
    (virCount : Nat) : Grown table value (insertPoints hash table oriHashcode value virCount) := by
  unfold insertPoints
  induction virCount with
  | zero => exact ⟨by simp, by simp, List.nodup_nil⟩
  | succ n ih =>
    rw [List.range_succ, List.foldl_append]
    exact grown_insertPoint ih _ n

theorem getElem?_erasePoints (table : Std.ExtTreeMap Nat V) (virList : List Nat) (p : Nat) :
    (erasePoints table virList)[p]? = if p ∈ virList then none else table[p]? := by
  unfold erasePoints
  induction virList generalizing table with
  | nil => simp
  | cons code virList ih =>
    rw [List.foldl_cons, ih, getElem?_erase]
    by_cases hp : p ∈ virList
    · simp [hp]
    · by_cases hcode : code = p
      · simp [hcode]
      · simp [hp, hcode, Ne.symm hcode]

/-- An entry that was not there is erased without a trace. -/
theorem erase_insert_absent {W : Type} {m : Std.ExtTreeMap Nat W} {k : Nat} (w : W)
    (habsent : m[k]? = none) : (m.insert k w).erase k = m := by
  apply Std.ExtTreeMap.ext_getElem?
  intro c
  rw [getElem?_erase, getElem?_insert]
  by_cases hc : k = c
  · rw [if_pos hc, ← hc, habsent]
  · rw [if_neg hc, if_neg hc]

/-- `insert` of an absent key that finds a free point. -/
theorem insert_eq {key : K} {value : V} {virCount : Nat}
    (habsent : t.virTable[hash.key key]? = none)
    (hsome : (insertPoints hash t.table (hash.key key) value virCount).2 ≠ []) :
    t.insert hash key value virCount =
      ((insertPoints hash t.table (hash.key key) value virCount).2.length,
        ⟨(insertPoints hash t.table (hash.key key) value virCount).1,
          t.virTable.insert (hash.key key)
            (insertPoints hash t.table (hash.key key) value virCount).2⟩) := by
  have hcontains : ¬ t.virTable.contains (hash.key key) = true := by simpa using habsent
  have hempty : ¬ (insertPoints hash t.table (hash.key key) value virCount).2.isEmpty = true := by
    rwa [List.isEmpty_iff]
  unfold ConHashtable.insert
  dsimp only
  rw [if_neg hcontains, if_neg hempty]

/-- Otherwise `insert` leaves the two maps as they are. -/
theorem insert_same {key : K} {value : V} {virCount : Nat} (h : t.virTable[hash.key key]? ≠ none ∨
    (insertPoints hash t.table (hash.key key) value virCount).2 = []) :
    t.insert hash key value virCount = (0, t) := by
  by_cases hcontains : t.virTable.contains (hash.key key) = true
  · unfold ConHashtable.insert
    dsimp only
    rw [if_pos hcontains]
  · have habsent : t.virTable[hash.key key]? = none := by simpa using hcontains
    have hnil := h.resolve_left (fun hne => hne habsent)
    have hgrown := grown_insertPoints hash t.table (hash.key key) value virCount
    have htable : (insertPoints hash t.table (hash.key key) value virCount).1 = t.table := by
      apply Std.ExtTreeMap.ext_getElem?
      intro p
      rw [hgrown.lookup, hnil, if_neg List.not_mem_nil]
    have hvir := erase_insert_absent [] habsent
    unfold ConHashtable.insert
    dsimp only
    rw [if_neg hcontains, hnil, List.isEmpty_nil, if_pos rfl, htable, hvir]

theorem inv_empty : Inv (.empty : ConHashtable V) where
  owned := by simp [ConHashtable.empty]
  disjoint := by simp [ConHashtable.empty]
  nonempty := by simp [ConHashtable.empty]
  nodup := by simp [ConHashtable.empty]

section Growing

variable {value : V} {st : Std.ExtTreeMap Nat V × List Nat} {code : Nat} (hi : Inv t)
  (habsent : t.virTable[code]? = none) (hgrown : Grown t.table value st)

include habsent in
theorem list_inserted {c : Nat} {l : List Nat} :
    (t.virTable.insert code st.2)[c]? = some l ↔ (c = code ∧ l = st.2) ∨
    t.virTable[c]? = some l := by
  rw [getElem?_insert]
  by_cases hc : code = c
  · subst hc
    simp [habsent, eq_comm]
  · simp [hc, Ne.symm hc]

include hi hgrown in
/-- A fresh point was in no list. -/
theorem not_mem_grown {c : Nat} {l : List Nat} {p : Nat} (hl : t.virTable[c]? = some l)
    (hp : p ∈ l) : p ∉ st.2 := by
  intro hmem
  obtain ⟨w, hw⟩ := mem_iff.mp ((hi.owned p).mpr ⟨c, l, hl, hp⟩)
  rw [hgrown.fresh p hmem] at hw
  cases hw

include hi habsent hgrown

theorem inv_grown (hne : st.2 ≠ []) :
    Inv (⟨st.1, t.virTable.insert code st.2⟩ : ConHashtable V) := by
  constructor
  · intro p
    simp only [list_inserted habsent]
    rw [mem_iff, hgrown.lookup]
    by_cases hp : p ∈ st.2
    · rw [if_pos hp]
      exact ⟨fun _ => ⟨code, st.2, .inl ⟨rfl, rfl⟩, hp⟩, fun _ => ⟨value, rfl⟩⟩
    · rw [if_neg hp, ← mem_iff, hi.owned p]
      constructor
      · rintro ⟨c, l, hl, hpl⟩
        exact ⟨c, l, .inr hl, hpl⟩
      · rintro ⟨c, l, ⟨rfl, rfl⟩ | hl, hpl⟩
        · exact absurd hpl hp
        · exact ⟨c, l, hl, hpl⟩
  · intro c c' l l' p hl hl' hp hp'
    obtain ⟨rfl, rfl⟩ | hold := (list_inserted habsent).mp hl
    · obtain ⟨rfl, rfl⟩ | hold' := (list_inserted habsent).mp hl'
      · rfl
      · exact absurd hp (not_mem_grown hi hgrown hold' hp')
    · obtain ⟨rfl, rfl⟩ | hold' := (list_inserted habsent).mp hl'
      · exact absurd hp' (not_mem_grown hi hgrown hold hp)
      · exact hi.disjoint c c' l l' p hold hold' hp hp'
  · intro c l hl
    obtain ⟨rfl, rfl⟩ | hl := (list_inserted habsent).mp hl
    · exact hne
    · exact hi.nonempty c l hl
  · intro c l hl
    obtain ⟨rfl, rfl⟩ | hl := (list_inserted habsent).mp hl
    · exact hgrown.nodup
    · exact hi.nodup c l hl

theorem added_grown (hne : st.2 ≠ []) :
    Added t.points (⟨st.1, t.virTable.insert code st.2⟩ : ConHashtable V).points code value := by
  have hinv := inv_grown hi habsent hgrown hne
  intro p
  by_cases hp : p ∈ st.2
  · right
    constructor
    · rw [ConHashtable.points, hgrown.fresh p hp]
      rfl
    · rw [points_eq_some hinv, hgrown.lookup, if_pos hp]
      exact ⟨rfl, st.2, (list_inserted habsent).mpr (.inl ⟨rfl, rfl⟩), hp⟩
  · left
    apply Option.ext
    rintro ⟨c, w⟩
    rw [points_eq_some hinv, points_eq_some hi, hgrown.lookup, if_neg hp]
    apply and_congr_right
    intro _
    constructor
    · rintro ⟨l, hl, hpl⟩
      obtain ⟨rfl, rfl⟩ | hl := (list_inserted habsent).mp hl
      · exact absurd hpl hp
      · exact ⟨l, hl, hpl⟩
    · rintro ⟨l, hl, hpl⟩
      exact ⟨l, (list_inserted habsent).mpr (.inr hl), hpl⟩

end Growing

/-- `insert` keeps the invariant and adds points of the key with the value. -/
theorem insert_spec (hi : Inv t) (hash : Hash K) (key : K) (value : V) (virCount : Nat) :
    Inv (t.insert hash key value virCount).2 ∧
      Added t.points (t.insert hash key value virCount).2.points (hash.key key) value := by
  by_cases hsame : t.virTable[hash.key key]? ≠ none ∨
      (insertPoints hash t.table (hash.key key) value virCount).2 = []
  · rw [insert_same hsame]
    exact ⟨hi, fun p => .inl rfl⟩
  · obtain ⟨habsent, hne⟩ := not_or.mp hsame
    have hgrown := grown_insertPoints hash t.table (hash.key key) value virCount
    rw [insert_eq (not_not.mp habsent) hne]
    exact ⟨inv_grown hi (not_not.mp habsent) hgrown hne,
      added_grown hi (not_not.mp habsent) hgrown hne⟩

section Shrinking

variable {virList : List Nat} {code : Nat} (hi : Inv t) (hlist : t.virTable[code]? = some virList)

theorem list_erased {c : Nat} {l : List Nat} :
    (t.virTable.erase code)[c]? = some l ↔ code ≠ c ∧ t.virTable[c]? = some l := by
  rw [getElem?_erase]
  by_cases hc : code = c
  · simp [hc]
  · simp [hc]

include hi hlist

/-- The points of another code stay in the table. -/
theorem not_mem_erased {c : Nat} {l : List Nat} {p : Nat} (hc : code ≠ c)
    (hl : t.virTable[c]? = some l) (hp : p ∈ l) :
    p ∉ virList :=
  fun hmem => hc (hi.disjoint code c virList l p hlist hl hmem hp)

theorem inv_erased :
    Inv (⟨erasePoints t.table virList, t.virTable.erase code⟩ : ConHashtable V) := by
  constructor
  · intro p
    simp only [list_erased]
    rw [mem_iff, getElem?_erasePoints]
    constructor
    · rintro ⟨w, hw⟩
      split at hw
      · cases hw
      · rename_i hp
        obtain ⟨c, l, hl, hpl⟩ := (hi.owned p).mp (mem_iff.mpr ⟨w, hw⟩)
        refine ⟨c, l, ⟨?_, hl⟩, hpl⟩
        rintro rfl
        rw [hlist] at hl
        cases hl
        exact hp hpl
    · rintro ⟨c, l, ⟨hc, hl⟩, hpl⟩
      rw [if_neg (not_mem_erased hi hlist hc hl hpl)]
      exact mem_iff.mp ((hi.owned p).mpr ⟨c, l, hl, hpl⟩)
  · intro c c' l l' p hl hl' hp hp'
    exact hi.disjoint c c' l l' p (list_erased.mp hl).2 (list_erased.mp hl').2 hp hp'
  · intro c l hl
    exact hi.nonempty c l (list_erased.mp hl).2
  · intro c l hl
    exact hi.nodup c l (list_erased.mp hl).2

theorem removed_erased :
    Removed t.points
      (⟨erasePoints t.table virList, t.virTable.erase code⟩ : ConHashtable V).points code := by
  have hinv := inv_erased hi hlist
  intro p
  constructor
  · intro v hv
    obtain ⟨-, l, hl, hpl⟩ := (points_eq_some hi).mp hv
    rw [hlist] at hl
    cases hl
    rw [ConHashtable.points, getElem?_erasePoints, if_pos hpl]
    rfl
  · intro hother
    apply Option.ext
    rintro ⟨c, w⟩
    rw [points_eq_some hinv, points_eq_some hi, getElem?_erasePoints]
    constructor
    · rintro ⟨hw, l, hl, hpl⟩
      split at hw
      · cases hw
      · exact ⟨hw, l, (list_erased.mp hl).2, hpl⟩
    · rintro ⟨hw, l, hl, hpl⟩
      have hc : code ≠ c := by
        rintro rfl
        exact hother w ((points_eq_some hi).mpr ⟨hw, l, hl, hpl⟩)
      exact ⟨by rw [if_neg (not_mem_erased hi hlist hc hl hpl), hw], l,
        list_erased.mpr ⟨hc, hl⟩, hpl⟩

end Shrinking

/-- `erase` keeps the invariant and removes the points of the key. -/
theorem erase_spec (hi : Inv t) (hash : Hash K) (key : K) :
    Inv (t.erase hash key).2 ∧ Removed t.points (t.erase hash key).2.points (hash.key key) := by
  unfold ConHashtable.erase
  cases hlist : t.virTable[hash.key key]? with
  | none =>
    refine ⟨hi, ?_⟩
    intro p
    refine ⟨?_, fun _ => rfl⟩
    intro v hv
    obtain ⟨-, l, hl, -⟩ := (points_eq_some hi).mp hv
    rw [hlist] at hl
    cases hl
  | some virList => exact ⟨inv_erased hi hlist, removed_erased hi hlist⟩

theorem inv_reached (hash : Hash K) (ops : List (Op K V)) : Inv (reached hash ops) := by
  unfold reached
  induction ops using List.reverseRecOn with
  | nil => exact inv_empty
  | append_singleton ops op ih =>
    rw [List.foldl_append]
    cases op with
    | insert key value virCount => exact (insert_spec ih hash key value virCount).1
    | erase key => exact (erase_spec ih hash key).1

end Updates

section Owners

variable {K V : Type} [Inhabited V] {t t' : ConHashtable V} {h code : Nat} {value : V}

/-- A hash code either belongs to nobody, in an empty table, or is found on the ring. -/
theorem owned_or_empty (hi : Inv t) (h : Nat) :
    (t.owner h = none ∧ t.hget h = default ∧ ∀ p, t.points p = none) ∨
    ∃ c, Found t.points h c (t.hget h) ∧ t.owner h = some c := by
  cases howner : t.owner h with
  | none =>
    obtain ⟨hempty, hdefault⟩ := owner_eq_none hi howner
    refine .inl ⟨rfl, hdefault, ?_⟩
    intro p
    have hplace : p ∉ places t.points := by
      rw [places_points hi, hempty]
      exact List.not_mem_nil
    exact Option.not_isSome_iff_eq_none.mp hplace
  | some c => exact .inr ⟨c, (found_iff hi).mpr ⟨howner, rfl⟩, rfl⟩

theorem owner_added (hi : Inv t) (hi' : Inv t')
    (ha : Added t.points t'.points code value) (h : Nat) :
    (t'.owner h = t.owner h ∧ t'.hget h = t.hget h) ∨
    (t'.owner h = some code ∧ t'.hget h = value) := by
  obtain ⟨howner', hdefault', hempty'⟩ | ⟨c, hfound', howner'⟩ := owned_or_empty hi' h
  · left
    obtain ⟨howner, hdefault, -⟩ | ⟨c, ⟨p, hp, -⟩, -⟩ := owned_or_empty hi h
    · exact ⟨howner'.trans howner.symm, hdefault'.trans hdefault.symm⟩
    · have hplace := mem_places.mp (ha.places_subset hp.1)
      rw [hempty' p] at hplace
      cases hplace
  · obtain hfound | ⟨rfl, hvalue⟩ := found_added ha hfound'
    · obtain ⟨howner, hget⟩ := (found_iff hi).mp hfound
      exact .inl ⟨howner'.trans howner.symm, hget.symm⟩
    · exact .inr ⟨howner', hvalue⟩

theorem owner_removed (hi : Inv t) (hi' : Inv t') (hr : Removed t.points t'.points code) (h : Nat) :
    (t.owner h ≠ some code → t'.owner h = t.owner h ∧ t'.hget h = t.hget h) ∧
    t'.owner h ≠ some code := by
  constructor
  · intro hne
    obtain ⟨howner, hdefault, hempty⟩ | ⟨c, hfound, howner⟩ := owned_or_empty hi h
    · obtain ⟨howner', hdefault', -⟩ | ⟨c, ⟨p, hp, -⟩, -⟩ := owned_or_empty hi' h
      · exact ⟨howner'.trans howner.symm, hdefault'.trans hdefault.symm⟩
      · have hplace := mem_places.mp (hr.places_subset hp.1)
        rw [hempty p] at hplace
        cases hplace
    · have hc : c ≠ code := by
        rintro rfl
        exact hne howner
      obtain ⟨howner', hget'⟩ := (found_iff hi').mp (found_removed hr hfound hc)
      exact ⟨howner'.trans howner.symm, hget'⟩
  · intro howner'
    exact not_found_removed hr ((found_iff hi').mpr ⟨howner', rfl⟩)

/-- An inserted key takes over the hash codes that change, and an erased one gives up
those that it had and no others. -/
theorem owners_move (hash : Hash K) (ops : List (Op K V)) (key : K) (value : V)
    (virCount : Nat) (h : Nat) :
    (((reached hash ops).insert hash key value virCount).2.owner h = (reached hash ops).owner h ∧
        ((reached hash ops).insert hash key value virCount).2.hget h = (reached hash ops).hget h ∨
      ((reached hash ops).insert hash key value virCount).2.owner h = some (hash.key key) ∧
        ((reached hash ops).insert hash key value virCount).2.hget h = value) ∧
    ((reached hash ops).owner h ≠ some (hash.key key) →
      ((reached hash ops).erase hash key).2.owner h = (reached hash ops).owner h ∧
        ((reached hash ops).erase hash key).2.hget h = (reached hash ops).hget h) ∧
    ((reached hash ops).erase hash key).2.owner h ≠ some (hash.key key) := by
  have hi := inv_reached hash ops
  obtain ⟨hinsert, hadded⟩ := insert_spec hi hash key value virCount
  obtain ⟨herase, hremoved⟩ := erase_spec hi hash key
  exact ⟨owner_added hi hinsert hadded h, owner_removed hi herase hremoved h⟩

end Owners

section Undo

variable {K V : Type} {hash : Hash K} {t : ConHashtable V} {key : K}

/-- The points that the loop of `insert` finds free are as many as the table grows by. -/
theorem size_insertPoints (hash : Hash K) (table : Std.ExtTreeMap Nat V) (oriHashcode : Nat)
    (value : V) (virCount : Nat) :
    (insertPoints hash table oriHashcode value virCount).1.size =
      table.size + (insertPoints hash table oriHashcode value virCount).2.length := by
  unfold insertPoints
  induction virCount with
  | zero => simp
  | succ n ih =>
    rw [List.range_succ, List.foldl_append, List.foldl_cons, List.foldl_nil]
    generalize (List.range n).foldl (insertPoint hash (Decimal.ofNat oriHashcode) value) (table, [])
      = st at ih ⊢
    rw [insertPoint]
    split
    · exact ih
    · rename_i hfree
      rw [Std.ExtTreeMap.size_insert, if_neg hfree, ih, List.length_append, List.length_singleton,
        Nat.add_assoc]

/-- `insert` counts the points that it adds, and the others stay. -/
theorem insert_counts (hash : Hash K) (t : ConHashtable V) (key : K) (value : V) (virCount : Nat) :
    (t.insert hash key value virCount).2.table.size =
      t.table.size + (t.insert hash key value virCount).1 ∧
    ∀ (p : Nat) v, t.table[p]? = some v →
      (t.insert hash key value virCount).2.table[p]? = some v := by
  by_cases hsame : t.virTable[hash.key key]? ≠ none ∨
      (insertPoints hash t.table (hash.key key) value virCount).2 = []
  · rw [insert_same hsame]
    exact ⟨rfl, fun _ _ hv => hv⟩
  · obtain ⟨habsent, hne⟩ := not_or.mp hsame
    rw [insert_eq (not_not.mp habsent) hne]
    refine ⟨size_insertPoints hash t.table (hash.key key) value virCount, fun p v hv => ?_⟩
    have hgrown := grown_insertPoints hash t.table (hash.key key) value virCount
    have hold : p ∉ (insertPoints hash t.table (hash.key key) value virCount).2 := by
      intro hmem
      rw [hgrown.fresh p hmem] at hv
      cases hv
    rw [hgrown.lookup, if_neg hold, hv]

theorem insert_same_iff (hash : Hash K) (t : ConHashtable V) (key : K) (value : V)
    (virCount : Nat) :
    (t.insert hash key value virCount).1 = 0 ↔ (t.insert hash key value virCount).2 = t := by
  constructor
  · intro hzero
    by_cases hsame : t.virTable[hash.key key]? ≠ none ∨
        (insertPoints hash t.table (hash.key key) value virCount).2 = []
    · rw [insert_same hsame]
    · obtain ⟨habsent, hne⟩ := not_or.mp hsame
      rw [insert_eq (not_not.mp habsent) hne] at hzero
      exact absurd (List.length_eq_zero_iff.mp hzero) hne
  · intro hsame
    have hsize := (insert_counts hash t key value virCount).1
    rw [hsame] at hsize
    omega

/-- The points that the loop has found free are free again without them. -/
theorem erasePoints_insertPoints (hash : Hash K) (table : Std.ExtTreeMap Nat V)
    (oriHashcode : Nat) (value : V) (virCount : Nat) :
    erasePoints (insertPoints hash table oriHashcode value virCount).1
      (insertPoints hash table oriHashcode value virCount).2 = table := by
  have hgrown := grown_insertPoints hash table oriHashcode value virCount
  apply Std.ExtTreeMap.ext_getElem?
  intro p
  rw [getElem?_erasePoints, hgrown.lookup]
  by_cases hp : p ∈ (insertPoints hash table oriHashcode value virCount).2
  · rw [if_pos hp, hgrown.fresh p hp]
  · rw [if_neg hp, if_neg hp]

theorem erase_insert (habsent : t.virTable[hash.key key]? = none) (value : V) (virCount : Nat) :
    ((t.insert hash key value virCount).2.erase hash key).2 = t := by
  by_cases hnil : (insertPoints hash t.table (hash.key key) value virCount).2 = []
  · rw [insert_same (.inr hnil), ConHashtable.erase, habsent]
  · rw [insert_eq habsent hnil, ConHashtable.erase]
    dsimp only
    rw [getElem?_insert, if_pos rfl]
    dsimp only
    rw [erasePoints_insertPoints, erase_insert_absent _ habsent]

/-- The two maps agree in every table, `insert` counts what it adds, and `erase` takes back
what an `insert` of an absent code has done, whichever points fall together. -/
theorem insert_undone (hash : Hash K) (ops : List (Op K V)) :
    Inv (reached hash ops) ∧
    ∀ (key : K) (value : V) (virCount : Nat),
      (((reached hash ops).insert hash key value virCount).2.table.size =
        (reached hash ops).table.size + ((reached hash ops).insert hash key value virCount).1 ∧
        ∀ (p : Nat) v, (reached hash ops).table[p]? = some v →
          ((reached hash ops).insert hash key value virCount).2.table[p]? = some v) ∧
      (((reached hash ops).insert hash key value virCount).1 = 0 ↔
        ((reached hash ops).insert hash key value virCount).2 = reached hash ops) ∧
      ((reached hash ops).virTable[hash.key key]? = none →
        (((reached hash ops).insert hash key value virCount).2.erase hash key).2 =
          reached hash ops) :=
  ⟨inv_reached hash ops, fun key value virCount =>
    ⟨insert_counts hash _ key value virCount, insert_same_iff hash _ key value virCount,
      fun habsent => erase_insert habsent value virCount⟩⟩

/-- All strings have one hash code, so there is only one point. -/
def oneString : Hash Bool := ⟨fun key => if key then 2 else 1, fun _ => 0⟩

theorem insert_undone_collision :
    (reached oneString [.insert false 7 3]).table.size = 1 ∧
    ((reached oneString [.insert false 7 3]).insert oneString true 8 2).1 = 0 ∧
    (((reached oneString [.insert false 7 3]).insert oneString true 8 2).2.erase oneString true).2 =
      reached oneString [.insert false 7 3] :=
  ⟨by decide +kernel, by decide +kernel,
    ((insert_undone oneString [.insert false 7 3]).2 true 8 2).2.2 (by decide +kernel)⟩

end Undo

end Ucorf.Conhash
