import Ucorf.ConhashHistory
import Ucorf.Dispatcher
import Ucorf.Threads

/-!
# The hash dispatcher

`HashDispatcher` keeps the transports under their urls, or the tags of their urls: a
second transport of a key is ignored by `Add`, and `Del` takes the key away whosoever
transport it is. What it routes to is always there, and nobody is forgotten as long as a
deleted transport leaves no other one of its key behind.
-/
namespace Ucorf.HashDispatch

open Ucorf.Message
open Ucorf.Threads
open Ucorf.Conhash
open Ucorf.ConhashHistory

/-- What the dispatcher asks of a transport. -/
class ITransportClient (T : Type) where
  remoteUrl : T → Bytes

structure HashDispatcher (T : Type) where
  virCount : Nat
  hashFn : Option (Bytes → Bytes → Bytes → Nat)
  hashTagFn : Option (Bytes → Bytes)
  hashIdx : Nat
  conhashTable : ConHashtable (Option T)

namespace HashDispatcher

variable {T : Type}

def init (virCount : Nat) (hashTagFn : Option (Bytes → Bytes)) : HashDispatcher T :=
  ⟨virCount, none, hashTagFn, 0, .empty⟩

def setHashFunction (d : HashDispatcher T) (fn : Bytes → Bytes → Bytes → Nat) : HashDispatcher T :=
  { d with hashFn := some fn }

/-- A count of zero stands for the default argument of `insert`. -/
def points (d : HashDispatcher T) : Nat := if d.virCount = 0 then 64 else d.virCount

theorem points_pos (d : HashDispatcher T) : 0 < d.points := by
  unfold points
  split <;> omega

/-- `std::hash<std::string>`, which the keys and the points are hashed with. -/
abbrev stringHash (hash : Bytes → Nat) : Hash Bytes := ⟨hash, hash⟩

variable (hash : Bytes → Nat)

/-- The hash code that a `Get` looks up, and the dispatcher after it. -/
def hashcode (d : HashDispatcher T) (service method request : Bytes) : Nat × HashDispatcher T :=
  match d.hashFn with
  | some hashFn => (hashFn service method request, d)
  | none =>
    let hashIdx := (d.hashIdx + 1) % 2 ^ 64
    (hash (Decimal.ofNat hashIdx), { d with hashIdx := hashIdx })

def get (d : HashDispatcher T) (service method request : Bytes) : Option T × HashDispatcher T :=
  let (code, d) := d.hashcode hash service method request
  (d.conhashTable.hget code, d)

variable [ITransportClient T]

def getHashKey (d : HashDispatcher T) (tp : T) : Bytes :=
  let url := ITransportClient.remoteUrl tp
  match d.hashTagFn with
  | some hashTagFn => hashTagFn url
  | none => url

def add (d : HashDispatcher T) (tp : T) : HashDispatcher T :=
  { d with
    conhashTable :=
      (d.conhashTable.insert (stringHash hash) (d.getHashKey tp) (some tp) d.points).2 }

def del (d : HashDispatcher T) (tp : T) : HashDispatcher T :=
  { d with conhashTable := (d.conhashTable.erase (stringHash hash) (d.getHashKey tp)).2 }

end HashDispatcher

section Calls

variable {T : Type} [ITransportClient T] [DecidableEq T] (hash : Bytes → Nat)

inductive Call (T : Type) where
  | add : T → Call T
  | del : T → Call T
  | get : Bytes → Bytes → Bytes → Call T
  | setHashFunction : (Bytes → Bytes → Bytes → Nat) → Call T

/-- The dispatcher, and the transports that were added and not deleted since. -/
structure Routing (T : Type) where
  dispatcher : HashDispatcher T
  live : List T

def start (virCount : Nat) (hashTagFn : Option (Bytes → Bytes)) : Routing T :=
  ⟨.init virCount hashTagFn, []⟩

/-- Only an added transport is deleted. -/
def step (s : Routing T) : Call T → Option (Routing T)
  | .add tp => some ⟨s.dispatcher.add hash tp, s.live.insert tp⟩
  | .del tp => if tp ∈ s.live then some ⟨s.dispatcher.del hash tp, s.live.filter (· ≠ tp)⟩ else none
  | .get service method request =>
    some { s with dispatcher := (s.dispatcher.get hash service method request).2 }
  | .setHashFunction fn => some { s with dispatcher := s.dispatcher.setHashFunction fn }

/-- `Get` gives a transport that is there, and one at all whenever one is there, and every
hash key that a transport has is routed to. -/
structure Remembers (s : Routing T) : Prop where
  null_iff : ∀ service method request,
  (s.dispatcher.get hash service method request).1 = none ↔ s.live = []
  live : ∀ service method request tp, (s.dispatcher.get hash service method request).1 = some tp →
    tp ∈ s.live
  routable : ∀ tp ∈ s.live, ∃ (code : Nat) (tp' : T),
    s.dispatcher.conhashTable.hget code = some tp' ∧
    tp' ∈ s.live ∧
    s.dispatcher.getHashKey tp' = s.dispatcher.getHashKey tp

/-- A transport that is deleted is the only one of its hash key. -/
def Alone (s : Routing T) : Call T → Prop
  | .del tp => ∀ tp' ∈ s.live, s.dispatcher.getHashKey tp' = s.dispatcher.getHashKey tp → tp' = tp
  | _ => True

/-- Transports of different hash keys have no point in common. -/
def Apart (d : HashDispatcher T) (tp tp' : T) : Prop :=
  d.getHashKey tp ≠ d.getHashKey tp' → ∀ i < d.points, ∀ j < d.points,
    virPoint (HashDispatcher.stringHash hash) (d.getHashKey tp) i ≠
      virPoint (HashDispatcher.stringHash hash) (d.getHashKey tp') j

def NoCollision (d : HashDispatcher T) (calls : List (Call T)) : Prop :=
  ∀ tp tp', .add tp ∈ calls → .add tp' ∈ calls → Apart hash d tp tp'

/-- Every list of points is that of a transport which is there. -/
structure Slots (s : Routing T) : Prop where
  inv : Inv s.dispatcher.conhashTable
  slot : ∀ (c : Nat) (l : List Nat), s.dispatcher.conhashTable.virTable[c]? = some l →
    ∃ tp ∈ s.live, hash (s.dispatcher.getHashKey tp) = c ∧
      ∀ p ∈ l, s.dispatcher.conhashTable.table[p]? = some (some tp) ∧
        ∃ i < s.dispatcher.points, virPoint (HashDispatcher.stringHash hash)
          (s.dispatcher.getHashKey tp) i = p

/-- Every transport that is there has its key in the table. -/
def Covered (s : Routing T) : Prop :=
  ∀ tp ∈ s.live, ∃ l,
    s.dispatcher.conhashTable.virTable[hash (s.dispatcher.getHashKey tp)]? = some l

end Calls

section Steps

variable {T : Type} {hash : Bytes → Nat} {d : HashDispatcher T}

theorem get_eq (service method request : Bytes) :
    (d.get hash service method request).1 =
      d.conhashTable.hget (d.hashcode hash service method request).1 := by
  unfold HashDispatcher.get HashDispatcher.hashcode
  cases d.hashFn <;> rfl

/-- A `Get` counts its calls, and nothing else. -/
theorem get_same (hash : Bytes → Nat) (d : HashDispatcher T) (service method request : Bytes) :
    ∃ hashIdx, (d.get hash service method request).2 = { d with hashIdx := hashIdx } := by
  obtain ⟨virCount, hashFn, hashTagFn, hashIdx, table⟩ := d
  cases hashFn with
  | some hashFn => exact ⟨hashIdx, rfl⟩
  | none => exact ⟨_, rfl⟩

variable [ITransportClient T]

theorem key_of_code {tp tp' : T} (ha : Apart hash d tp tp')
    (hcode : hash (d.getHashKey tp) = hash (d.getHashKey tp')) :
    d.getHashKey tp = d.getHashKey tp' := by
  by_contra hne
  apply ha hne 0 d.points_pos 0 d.points_pos
  simp only [virPoint, hcode]

variable {s s' : Routing T} {tp : T}

/-- `Add` finds the key in the table, or gives it points of its own. -/
theorem add_cases (hs : Slots hash s) (ha : ∀ tp' ∈ s.live, Apart hash s.dispatcher tp' tp) :
    (s.dispatcher.add hash tp = s.dispatcher ∧
      ∃ l, s.dispatcher.conhashTable.virTable[hash (s.dispatcher.getHashKey tp)]? = some l) ∨
    (s.dispatcher.conhashTable.virTable[hash (s.dispatcher.getHashKey tp)]? = none ∧
      ∃ st, (s.dispatcher.add hash tp).conhashTable =
          ⟨st.1, s.dispatcher.conhashTable.virTable.insert
            (hash (s.dispatcher.getHashKey tp)) st.2⟩ ∧
        Grown s.dispatcher.conhashTable.table (some tp) st ∧ st.2 ≠ [] ∧
        ∀ p ∈ st.2, ∃ i < s.dispatcher.points,
          virPoint (HashDispatcher.stringHash hash) (s.dispatcher.getHashKey tp) i = p) := by
  cases habsent : s.dispatcher.conhashTable.virTable[hash (s.dispatcher.getHashKey tp)]? with
  | some l =>
    left
    have hpresent : s.dispatcher.conhashTable.virTable[(HashDispatcher.stringHash hash).key
        (s.dispatcher.getHashKey tp)]? ≠ none := Option.ne_none_iff_exists'.mpr ⟨l, habsent⟩
    have hsame : s.dispatcher.conhashTable.insert (HashDispatcher.stringHash hash)
        (s.dispatcher.getHashKey tp) (some tp) s.dispatcher.points =
          (0, s.dispatcher.conhashTable) :=
      insert_same (.inl hpresent)
    refine ⟨?_, l, rfl⟩
    rw [HashDispatcher.add, hsame]
  | none =>
    right
    have hfree : s.dispatcher.conhashTable.table[virPoint (HashDispatcher.stringHash hash)
        (s.dispatcher.getHashKey tp) 0]? = none := by
      by_contra hne
      obtain ⟨v, hv⟩ := Option.ne_none_iff_exists'.mp hne
      obtain ⟨c, l, hl, hp⟩ := (hs.inv.owned _).mp (mem_iff.mpr ⟨v, hv⟩)
      obtain ⟨tp', hlive, rfl, hpoints⟩ := hs.slot c l hl
      obtain ⟨-, i, hi, heq⟩ := hpoints _ hp
      by_cases hkey : s.dispatcher.getHashKey tp' = s.dispatcher.getHashKey tp
      · rw [hkey, habsent] at hl
        cases hl
      · exact ha tp' hlive hkey i hi 0 s.dispatcher.points_pos heq
    have hne : (insertPoints (HashDispatcher.stringHash hash) s.dispatcher.conhashTable.table
        ((HashDispatcher.stringHash hash).key (s.dispatcher.getHashKey tp))
          (some tp) s.dispatcher.points).2 ≠ [] :=
      List.ne_nil_of_mem (mem_insertPoints s.dispatcher.points_pos hfree)
    refine ⟨rfl, _, ?_, grown_insertPoints _ _ _ _ _, hne, fun p hp => of_mem_insertPoints hp⟩
    rw [HashDispatcher.add, insert_eq habsent hne]

/-- `Del` frees the points of the key, if it is in the table. -/
theorem del_cases (hash : Bytes → Nat) (d : HashDispatcher T) (tp : T) :
    (d.conhashTable.virTable[hash (d.getHashKey tp)]? = none ∧
      (d.del hash tp).conhashTable = d.conhashTable) ∨
    ∃ virList, d.conhashTable.virTable[hash (d.getHashKey tp)]? = some virList ∧
      (d.del hash tp).conhashTable =
        ⟨erasePoints d.conhashTable.table virList,
          d.conhashTable.virTable.erase (hash (d.getHashKey tp))⟩ := by
  unfold HashDispatcher.del ConHashtable.erase
  cases hlist : d.conhashTable.virTable[hash (d.getHashKey tp)]? with
  | none => exact .inl ⟨rfl, rfl⟩
  | some virList => exact .inr ⟨virList, rfl, rfl⟩

/-- The key of a deleted transport is gone, and the lists of the others are as before. -/
theorem del_list {c : Nat} {l : List Nat} :
    (d.del hash tp).conhashTable.virTable[c]? = some l ↔
      hash (d.getHashKey tp) ≠ c ∧ d.conhashTable.virTable[c]? = some l := by
  obtain ⟨hnone, hsame⟩ | ⟨virList, -, herase⟩ := del_cases hash d tp
  · rw [hsame]
    constructor
    · intro hl
      refine ⟨?_, hl⟩
      rintro rfl
      rw [hnone] at hl
      cases hl
    · exact fun h => h.2
  · rw [herase]
    exact list_erased

/-- The transport at a point is there, and the list of its key holds the point. -/
theorem point_slot (hs : Slots hash s) {p : Nat} {v : Option T}
    (hv : s.dispatcher.conhashTable.table[p]? = some v) :
    ∃ tp ∈ s.live, v = some tp ∧
      ∃ l, s.dispatcher.conhashTable.virTable[hash (s.dispatcher.getHashKey tp)]? = some l := by
  obtain ⟨c, l, hl, hp⟩ := (hs.inv.owned p).mp (mem_iff.mpr ⟨v, hv⟩)
  obtain ⟨tp, hlive, rfl, hslot⟩ := hs.slot c l hl
  have hvalue := (hslot p hp).1
  rw [hv] at hvalue
  exact ⟨tp, hlive, Option.some.inj hvalue, l, hl⟩

theorem covered_of_remembers (hs : Slots hash s) (hr : Remembers hash s) : Covered hash s := by
  intro tp hlive
  obtain ⟨code, tp', hget, -, hkey⟩ := hr.routable tp hlive
  obtain ⟨-, hdefault⟩ | ⟨p, hp⟩ := hget_cases s.dispatcher.conhashTable code
  · rw [hget] at hdefault
    cases hdefault
  · rw [hget] at hp
    obtain ⟨tp'', -, heq, hlist⟩ := point_slot hs hp
    cases heq
    rwa [hkey] at hlist

/-- A transport whose key is in the table has a point, with a transport of its code. -/
theorem covered_point (hs : Slots hash s) (hc : Covered hash s) (hlive : tp ∈ s.live) :
    ∃ (p : Nat) (tp' : T), s.dispatcher.conhashTable.table[p]? = some (some tp') ∧ tp' ∈ s.live ∧
      hash (s.dispatcher.getHashKey tp') = hash (s.dispatcher.getHashKey tp) := by
  obtain ⟨l, hl⟩ := hc tp hlive
  obtain ⟨p, hp⟩ := List.exists_mem_of_ne_nil l (hs.inv.nonempty _ l hl)
  obtain ⟨tp', hlive', hcode, hslot⟩ := hs.slot _ l hl
  exact ⟨p, tp', (hslot p hp).1, hlive', hcode⟩

/-- Every code is routed to a transport that is there, unless there is none. -/
theorem covered_hget (hs : Slots hash s) (hc : Covered hash s) (code : Nat) :
    (s.live = [] ∧ s.dispatcher.conhashTable.hget code = none) ∨
      ∃ tp ∈ s.live, s.dispatcher.conhashTable.hget code = some tp := by
  obtain ⟨hempty, hdefault⟩ | ⟨p, hp⟩ := hget_cases s.dispatcher.conhashTable code
  · left
    refine ⟨List.eq_nil_iff_forall_not_mem.mpr ?_, hdefault⟩
    intro tp hlive
    obtain ⟨p, tp', hp, -⟩ := covered_point hs hc hlive
    have hmem := Std.ExtTreeMap.mem_toList_iff_getElem?_eq_some.mpr hp
    rw [hempty] at hmem
    cases hmem
  · obtain ⟨tp, hlive, heq, -⟩ := point_slot hs hp
    exact .inr ⟨tp, hlive, heq⟩

theorem remembers_of_covered (hs : Slots hash s) (hc : Covered hash s)
    (ha : ∀ tp ∈ s.live, ∀ tp' ∈ s.live, Apart hash s.dispatcher tp tp') : Remembers hash s where
  null_iff service method request := by
    rw [get_eq]
    obtain ⟨hnil, hget⟩ | ⟨tp, hlive, hget⟩ :=
      covered_hget hs hc (s.dispatcher.hashcode hash service method request).1
    · simp [hnil, hget]
    · rw [hget]
      constructor
      · intro h
        cases h
      · intro hnil
        rw [hnil] at hlive
        cases hlive
  live service method request tp h := by
    rw [get_eq] at h
    obtain ⟨-, hget⟩ | ⟨tp', hlive, hget⟩ :=
      covered_hget hs hc (s.dispatcher.hashcode hash service method request).1
    · rw [hget] at h
      cases h
    · rw [hget] at h
      cases h
      exact hlive
  routable tp hlive := by
    obtain ⟨p, tp', hp, hlive', hcode⟩ := covered_point hs hc hlive
    exact ⟨p, tp', hget_point hp, hlive', key_of_code (ha tp' hlive' tp hlive) hcode⟩

variable [DecidableEq T]

theorem slots_add (hs : Slots hash s) (ha : ∀ tp' ∈ s.live, Apart hash s.dispatcher tp' tp) :
    Slots hash ⟨s.dispatcher.add hash tp, s.live.insert tp⟩ := by
  have hinv : Inv (s.dispatcher.add hash tp).conhashTable := (insert_spec hs.inv _ _ _ _).1
  refine ⟨hinv, ?_⟩
  intro c l hl
  obtain ⟨hsame, -⟩ | ⟨habsent, st, htable, hgrown, -, hpoints⟩ := add_cases hs ha
  · dsimp only at hl ⊢
    rw [hsame] at hl ⊢
    obtain ⟨tp', hlive, hslot⟩ := hs.slot c l hl
    exact ⟨tp', List.mem_insert_of_mem hlive, hslot⟩
  · dsimp only at hl ⊢
    rw [htable] at hl ⊢
    obtain ⟨rfl, rfl⟩ | hold := (list_inserted habsent).mp hl
    · refine ⟨tp, List.mem_insert_self, rfl, ?_⟩
      intro p hp
      refine ⟨?_, hpoints p hp⟩
      rw [hgrown.lookup, if_pos hp]
    · obtain ⟨tp', hlive, hcode, hslot⟩ := hs.slot c l hold
      refine ⟨tp', List.mem_insert_of_mem hlive, hcode, ?_⟩
      intro p hp
      refine ⟨?_, (hslot p hp).2⟩
      rw [hgrown.lookup, if_neg (not_mem_grown hs.inv hgrown hold hp)]
      exact (hslot p hp).1

theorem slots_del (hs : Slots hash s) :
    Slots hash ⟨s.dispatcher.del hash tp, s.live.filter (· ≠ tp)⟩ := by
  have hinv : Inv (s.dispatcher.del hash tp).conhashTable := (erase_spec hs.inv _ _).1
  refine ⟨hinv, ?_⟩
  intro c l hl
  obtain ⟨hcode, hold⟩ := del_list.mp hl
  obtain ⟨tp', hlive, hc, hslot⟩ := hs.slot c l hold
  have hne : tp' ≠ tp := by
    rintro rfl
    exact hcode hc
  refine ⟨tp', List.mem_filter.mpr ⟨hlive, by simpa using hne⟩, hc, ?_⟩
  intro p hp
  refine ⟨?_, (hslot p hp).2⟩
  dsimp only
  obtain ⟨-, hsame⟩ | ⟨virList, hlist, herase⟩ := del_cases hash s.dispatcher tp
  · rw [hsame]
    exact (hslot p hp).1
  · rw [herase, getElem?_erasePoints, if_neg (not_mem_erased hs.inv hlist hcode hold hp)]
    exact (hslot p hp).1

theorem covered_add (hs : Slots hash s) (hc : Covered hash s)
    (ha : ∀ tp' ∈ s.live, Apart hash s.dispatcher tp' tp) :
    Covered hash ⟨s.dispatcher.add hash tp, s.live.insert tp⟩ := by
  intro tp' hlive
  have hkey : (s.dispatcher.add hash tp).getHashKey tp' = s.dispatcher.getHashKey tp' := rfl
  obtain rfl | hlive := List.mem_insert_iff.mp hlive
  · obtain ⟨hsame, hlist⟩ | ⟨habsent, st, htable, -, -, -⟩ := add_cases hs ha
    · rwa [hsame]
    · dsimp only
      rw [htable, hkey]
      exact ⟨st.2, (list_inserted habsent).mpr (.inl ⟨rfl, rfl⟩)⟩
  · obtain ⟨l, hl⟩ := hc tp' hlive
    obtain ⟨hsame, -⟩ | ⟨habsent, st, htable, -, -, -⟩ := add_cases hs ha
    · dsimp only
      rw [hsame]
      exact ⟨l, hl⟩
    · dsimp only
      rw [htable, hkey]
      exact ⟨l, (list_inserted habsent).mpr (.inr hl)⟩

theorem covered_del (hc : Covered hash s) (ha : ∀ tp' ∈ s.live, Apart hash s.dispatcher tp tp')
    (halone : ∀ tp' ∈ s.live, s.dispatcher.getHashKey tp' = s.dispatcher.getHashKey tp → tp' = tp) :
    Covered hash ⟨s.dispatcher.del hash tp, s.live.filter (· ≠ tp)⟩ := by
  intro tp' hlive
  obtain ⟨hlive, hne⟩ := List.mem_filter.mp hlive
  have hcode : hash (s.dispatcher.getHashKey tp) ≠ hash (s.dispatcher.getHashKey tp') := by
    intro heq
    have hsame := halone tp' hlive (key_of_code (ha tp' hlive) heq).symm
    simp [hsame] at hne
  obtain ⟨l, hl⟩ := hc tp' hlive
  exact ⟨l, del_list.mpr ⟨hcode, hl⟩⟩

end Steps

section Settings

variable {T : Type} {virCount : Nat} {hashTagFn : Option (Bytes → Bytes)} {calls : List (Call T)}
  {s s' : Routing T}

/-- The count and the tags are as at first, and what is there was added by one of the calls. -/
structure Settled (virCount : Nat) (hashTagFn : Option (Bytes → Bytes)) (calls : List (Call T))
    (s : Routing T) : Prop where
  virCount : s.dispatcher.virCount = virCount
  hashTagFn : s.dispatcher.hashTagFn = hashTagFn
  added : ∀ tp ∈ s.live, .add tp ∈ calls

theorem settled_start : Settled virCount hashTagFn calls (start virCount hashTagFn) :=
  ⟨rfl, rfl, fun _ h => nomatch h⟩

variable [ITransportClient T] {hash : Bytes → Nat}

theorem slots_start : Slots hash (start virCount hashTagFn : Routing T) where
  inv := inv_empty
  slot c l hl := by simp [start, HashDispatcher.init, ConHashtable.empty] at hl

/-- Points depend on the count and on the tags only. -/
theorem apart_of_settled (hs : Settled virCount hashTagFn calls s)
    (hno : NoCollision hash (.init virCount hashTagFn) calls) {tp tp' : T} (hadd : .add tp ∈ calls)
    (hadd' : .add tp' ∈ calls) : Apart hash s.dispatcher tp tp' := by
  have hpoints : s.dispatcher.points =
      (HashDispatcher.init virCount hashTagFn : HashDispatcher T).points := by
    rw [HashDispatcher.points, hs.virCount]
    rfl
  have hkey (tp : T) : s.dispatcher.getHashKey tp =
      (HashDispatcher.init virCount hashTagFn).getHashKey tp := by
    rw [HashDispatcher.getHashKey, hs.hashTagFn]
    rfl
  have happart := hno tp tp' hadd hadd'
  rw [Apart, hpoints, hkey, hkey]
  exact happart

variable [DecidableEq T]

theorem settled_step {call : Call T} (hs : Settled virCount hashTagFn calls s)
    (hcall : call ∈ calls)
    (h : step hash s call = some s') : Settled virCount hashTagFn calls s' := by
  cases call with
  | add tp =>
    cases h
    refine ⟨hs.virCount, hs.hashTagFn, ?_⟩
    intro tp' hlive
    obtain rfl | hlive := List.mem_insert_iff.mp hlive
    · exact hcall
    · exact hs.added tp' hlive
  | del tp =>
    simp only [step] at h
    split at h
    · cases h
      exact ⟨hs.virCount, hs.hashTagFn, fun tp' hlive => hs.added tp' (List.mem_filter.mp hlive).1⟩
    · cases h
  | get service method request =>
    obtain ⟨hashIdx, hsame⟩ := get_same hash s.dispatcher service method request
    simp only [step, hsame] at h
    cases h
    exact ⟨hs.virCount, hs.hashTagFn, hs.added⟩
  | setHashFunction fn =>
    cases h
    exact ⟨hs.virCount, hs.hashTagFn, hs.added⟩

end Settings

section Runs

variable {T : Type} [ITransportClient T] [DecidableEq T] {hash : Bytes → Nat} {virCount : Nat}
  {hashTagFn : Option (Bytes → Bytes)} {calls : List (Call T)} {s s' : Routing T}

section Calls

variable {call : Call T} (hsettled : Settled virCount hashTagFn calls s)
  (hno : NoCollision hash (.init virCount hashTagFn) calls) (hcall : call ∈ calls)
    (h : step hash s call = some s')

include hsettled hno hcall h

theorem slots_step (hs : Slots hash s) : Slots hash s' := by
  cases call with
  | add tp =>
    cases h
    exact slots_add hs fun tp' hlive =>
      apart_of_settled hsettled hno (hsettled.added tp' hlive) hcall
  | del tp =>
    simp only [step] at h
    split at h
    · cases h
      exact slots_del hs
    · cases h
  | get service method request =>
    obtain ⟨hashIdx, hsame⟩ := get_same hash s.dispatcher service method request
    simp only [step, hsame] at h
    cases h
    exact ⟨hs.inv, hs.slot⟩
  | setHashFunction fn =>
    cases h
    exact ⟨hs.inv, hs.slot⟩

theorem covered_step (hs : Slots hash s) (hc : Covered hash s) (halone : Alone s call) :
    Covered hash s' := by
  cases call with
  | add tp =>
    cases h
    exact covered_add hs hc fun tp' hlive =>
      apart_of_settled hsettled hno (hsettled.added tp' hlive) hcall
  | del tp =>
    simp only [step] at h
    split at h
    · rename_i hmem
      cases h
      refine covered_del hc ?_ halone
      exact fun tp' hlive => apart_of_settled hsettled hno (hsettled.added tp hmem)
        (hsettled.added tp' hlive)
    · cases h
  | get service method request =>
    obtain ⟨hashIdx, hsame⟩ := get_same hash s.dispatcher service method request
    simp only [step, hsame] at h
    cases h
    exact hc
  | setHashFunction fn =>
    cases h
    exact hc

end Calls

/-- What holds after any of the calls. -/
theorem slots_run {acts : List (Call T)} (hno : NoCollision hash (.init virCount hashTagFn) calls)
    (h : run (step hash) (start virCount hashTagFn) acts = some s)
    (hsub : ∀ call ∈ acts, call ∈ calls) :
    Settled virCount hashTagFn calls s ∧ Slots hash s := by
  have hinv := trace_invariant (I := fun acts s => (∀ call ∈ acts, call ∈ calls) →
    Settled virCount hashTagFn calls s ∧ Slots hash s) (fun _ => ⟨settled_start, slots_start⟩) ?_ h
  · exact hinv hsub
  · intro acts m call m' _ ih hstep hsub
    obtain ⟨hsettled, hs⟩ := ih fun c hc => hsub c (List.mem_append_left _ hc)
    have hcall : call ∈ calls := hsub call (by simp)
    exact ⟨settled_step hsettled hcall hstep, slots_step hsettled hno hcall hstep hs⟩

theorem covered_run {acts : List (Call T)} (hno : NoCollision hash (.init virCount hashTagFn) calls)
    (hguard : Guarded (step hash) Alone (start virCount hashTagFn) acts)
    (h : run (step hash) (start virCount hashTagFn) acts = some s)
    (hsub : ∀ call ∈ acts, call ∈ calls) :
    Covered hash s := by
  have hempty : Covered hash (start virCount hashTagFn : Routing T) := by
    intro tp hlive
    cases hlive
  have hinv :=
    guarded_trace_invariant (I := fun acts s => (∀ call ∈ acts, call ∈ calls) → Covered hash s)
    (fun _ => hempty) ?_ hguard h
  · exact hinv hsub
  · intro acts m call m' hm ih halone hstep hsub
    have hold : ∀ c ∈ acts, c ∈ calls := fun c hc => hsub c (List.mem_append_left _ hc)
    obtain ⟨hsettled, hs⟩ := slots_run hno hm hold
    exact covered_step hsettled hno (hsub call (by simp)) hstep hs (ih hold) halone

/-- After a deletion that leaves a transport of the same key behind, that one is forgotten. -/
theorem alone_of_covered {tp : T}
    (hc : Covered hash ⟨s.dispatcher.del hash tp, s.live.filter (· ≠ tp)⟩) :
    Alone s (.del tp) := by
  intro tp' hlive hkey
  by_contra hne
  obtain ⟨l, hl⟩ := hc tp' (List.mem_filter.mpr ⟨hlive, by simpa using hne⟩)
  have hkey' : (s.dispatcher.del hash tp).getHashKey tp' = s.dispatcher.getHashKey tp := hkey
  dsimp only at hl
  rw [hkey'] at hl
  exact (del_list.mp hl).1 rfl

/-- The dispatcher remembers its transports throughout a run exactly when none is deleted
while another one of its hash key is there. -/
theorem remembers_iff (hash : Bytes → Nat) (virCount : Nat) (hashTagFn : Option (Bytes → Bytes))
    (calls : List (Call T)) (s : Routing T)
    (hno : NoCollision hash (.init virCount hashTagFn) calls)
    (hrun : run (step hash) (start virCount hashTagFn) calls = some s) :
    (∀ pre post m, calls = pre ++ post → run (step hash) (start virCount hashTagFn) pre = some m →
      Remembers hash m) ↔
      Guarded (step hash) Alone (start virCount hashTagFn) calls := by
  constructor
  · intro hall pre call post m he hm
    cases call with
    | del tp =>
      rw [he, run_append, hm, Option.bind_some, run_cons, Option.bind_eq_some_iff] at hrun
      obtain ⟨m', hstep, -⟩ := hrun
      have hm' : run (step hash) (start virCount hashTagFn) (pre ++ [.del tp]) = some m' := by
        rw [run_append, hm, Option.bind_some, run_cons, hstep]
        rfl
      have he' : calls = (pre ++ [.del tp]) ++ post := by rw [he, List.append_assoc]; rfl
      have hsub : ∀ call ∈ pre ++ [.del tp], call ∈ calls := by
        intro call hcall
        rw [he']
        exact List.mem_append_left _ hcall
      have hcovered := covered_of_remembers (slots_run hno hm' hsub).2 (hall _ _ _ he' hm')
      simp only [step] at hstep
      split at hstep
      · cases hstep
        exact alone_of_covered hcovered
      · cases hstep
    | _ => trivial
  · intro hguard pre post m he hm
    subst he
    have hsub : ∀ call ∈ pre, call ∈ pre ++ post := fun call hcall => List.mem_append_left _ hcall
    obtain ⟨hsettled, hs⟩ := slots_run hno hm hsub
    apply remembers_of_covered hs (covered_run hno hguard.left hm hsub)
    exact fun tp hlive tp' hlive' => apart_of_settled hsettled hno (hsettled.added tp hlive)
      (hsettled.added tp' hlive')

instance (s : Routing T) : (call : Call T) → Decidable (Alone s call)
  | .del tp => inferInstanceAs
    (Decidable (∀ tp' ∈ s.live,
      s.dispatcher.getHashKey tp' = s.dispatcher.getHashKey tp → tp' = tp))
  | .add _ | .get .. | .setHashFunction _ => inferInstanceAs (Decidable True)

/-- A connection with its url. -/
structure Conn where
  id : Nat
  url : Bytes
  deriving DecidableEq, Repr

instance : ITransportClient Conn := ⟨Conn.url⟩

def twoUrls : List (Call Conn) := [.add ⟨0, [65]⟩, .add ⟨1, [66]⟩, .del ⟨0, [65]⟩]

theorem remembers_twoUrls :
    ∃ s, run (step sampleHash.string) (start 2 none) twoUrls = some s ∧ s.live = [⟨1, [66]⟩] ∧
    Remembers sampleHash.string s := by
  have hno : NoCollision sampleHash.string (.init 2 none) twoUrls := by
    intro tp tp' htp htp'
    simp only [twoUrls, List.mem_cons, Call.add.injEq, reduceCtorEq, List.not_mem_nil,
      or_false] at htp htp'
    obtain rfl | rfl := htp <;> obtain rfl | rfl := htp' <;> unfold Apart <;> decide
  obtain ⟨s, hs, hlive⟩ := run_exists (step sampleHash.string) (start 2 none) twoUrls
    (fun s => s.live = [⟨1, [66]⟩]) (by decide +kernel)
  have hiff := remembers_iff sampleHash.string 2 none twoUrls s hno hs
  exact ⟨s, hs, of_decide_eq_true hlive, hiff.mpr (by decide +kernel) twoUrls [] s rfl hs⟩

/-- Two connections of one url, of which the first is deleted. -/
def oneUrl : List (Call Conn) := [.add ⟨0, [65]⟩, .add ⟨1, [65]⟩, .del ⟨0, [65]⟩]

/-- The second connection is still there, and nothing is routed to it. -/
theorem second_forgotten : ¬ ∀ (calls : List (Call Conn)) (s : Routing Conn),
    NoCollision sampleHash.string (.init 1 none) calls →
      run (step sampleHash.string) (start 1 none) calls = some s →
    Remembers sampleHash.string s := by
  intro hall
  have hno : NoCollision sampleHash.string (.init 1 none) oneUrl := by
    intro tp tp' htp htp'
    simp only [oneUrl, List.mem_cons, Call.add.injEq, reduceCtorEq, List.not_mem_nil,
      or_false] at htp htp'
    obtain rfl | rfl := htp <;> obtain rfl | rfl := htp' <;> unfold Apart <;> decide
  obtain ⟨s, hs, hend⟩ := run_exists (step sampleHash.string) (start 1 none) oneUrl
    (fun s => s.live = [⟨1, [65]⟩] ∧ (s.dispatcher.get sampleHash.string [] [] []).1 = none)
    (by decide +kernel)
  obtain ⟨hlive, hnull⟩ := of_decide_eq_true hend
  have hnil := ((hall oneUrl s hno hs).null_iff [] [] []).mp hnull
  rw [hlive] at hnil
  cases hnil

end Runs

end Ucorf.HashDispatch
