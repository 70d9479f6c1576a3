import Mathlib.Data.Int.CardIntervalMod
import Mathlib.Data.List.Count
import Mathlib.Data.List.Induction
import Ucorf.Dispatcher

/-!
# The history of a round-robin dispatcher

What `Add` and `Del` have left of the transports, whatever came between them, and the
positions that `Get` visits from wherever `robin_idx_` stands: a round over the list takes
each of them once.
-/
namespace Ucorf.DispatcherHistory

open Ucorf.Message
open Ucorf.Dispatcher

/-- The calls of a dispatcher; a request has its service name, its method name and itself. -/
structure Request where
  service : Bytes
  method : Bytes
  body : Bytes

inductive Op (T : Type) where
  | add : T → Op T
  | del : T → Op T
  | get : Request → Op T

variable {T : Type}

def apply [DecidableEq T] (d : RobinDispatcher T) : Op T → RobinDispatcher T
  | .add tp => d.add tp
  | .del tp => d.del tp
  | .get r => (d.get r.service r.method r.body).2

/-- The dispatcher after the calls, one at a time. -/
def after [DecidableEq T] (ops : List (Op T)) : RobinDispatcher T := ops.foldl apply .init

/-- The transports that were added, and those of the deletions that had an addition left. -/
structure History (T : Type) where
  added : List T
  deleted : List T

def record [DecidableEq T] (h : History T) : Op T → History T
  | .add tp => { h with added := h.added ++ [tp] }
  | .del tp => if h.deleted.count tp < h.added.count tp
      then { h with deleted := h.deleted ++ [tp] } else h
  | .get _ => h

def history [DecidableEq T] (ops : List (Op T)) : History T := ops.foldl record ⟨[], []⟩

section Contents

variable [DecidableEq T] {added deleted : List T}

/-- Deletions that all found their transport leave a later addition at the end. -/
theorem diff_concat (h : ∀ tp, deleted.count tp ≤ added.count tp) (tp : T) :
    (added ++ [tp]).diff deleted = added.diff deleted ++ [tp] := by
  induction deleted generalizing added with
  | nil => simp
  | cons u deleted ih =>
    have hu : u ∈ added := by
      apply List.count_pos_iff.mp
      have hcount := h u
      rw [List.count_cons_self] at hcount
      omega
    rw [List.diff_cons, List.diff_cons, List.erase_append_left _ hu, ih]
    intro v
    have hcount := h v
    by_cases hv : u = v
    · subst hv
      rw [List.count_cons_self] at hcount
      rw [List.count_erase_self]
      omega
    · rw [List.count_cons_of_ne hv] at hcount
      rw [List.count_erase_of_ne (Ne.symm hv)]
      exact hcount

theorem history_concat (ops : List (Op T)) (op : Op T) :
    history (ops ++ [op]) = record (history ops) op := by
  simp [history]

theorem after_concat (ops : List (Op T)) (op : Op T) :
    after (ops ++ [op]) = apply (after ops) op := by
  simp [after]

/-- No more deletions are recorded than additions. -/
theorem deleted_le (ops : List (Op T)) (tp : T) :
    (history ops).deleted.count tp ≤ (history ops).added.count tp := by
  induction ops using List.reverseRecOn with
  | nil => simp [history]
  | append_singleton ops op ih =>
    rw [history_concat]
    cases op with
    | add u =>
      simp only [record, List.count_append]
      omega
    | del u =>
      simp only [record]
      split
      · rename_i hlt
        by_cases hu : u = tp
        · subst hu
          simp
          omega
        · simpa [hu] using ih
      · exact ih
    | get r => exact ih

/-- The list holds what was added less what was deleted, in order of addition. -/
theorem tpList_after (ops : List (Op T)) :
    (after ops).tpList = (history ops).added.diff (history ops).deleted := by
  induction ops using List.reverseRecOn with
  | nil => rfl
  | append_singleton ops op ih =>
    rw [history_concat, after_concat]
    cases op with
    | add tp =>
      simp only [apply, RobinDispatcher.add, record, ih]
      exact (diff_concat (deleted_le ops) tp).symm
    | del tp =>
      simp only [apply, RobinDispatcher.del, record, ih]
      split
      · rw [List.diff_append, List.diff_cons, List.diff_nil]
      · rename_i hle
        apply List.erase_of_not_mem
        rw [← List.count_eq_zero, List.count_diff]
        omega
    | get r =>
      rw [apply, RobinDispatcher.get_tpList, ih]
      rfl

end Contents

section Rounds

/-- One `Get` after the other: the transport of each, and the position that it is taken from. -/
def gets (d : RobinDispatcher T) : List Request → List (Option T × Nat)
  | [] => []
  | r :: rest =>
    let answer := d.get r.service r.method r.body
    (answer.1, answer.2.robinIdx) :: gets answer.2 rest

variable {d : RobinDispatcher T} {n i : Nat}

theorem get_eq (h : d.tpList ≠ []) (service method body : Bytes) :
    d.get service method body = (d.tpList[(d.robinIdx + 1) % d.tpList.length]?,
      ⟨d.tpList, (d.robinIdx + 1) % d.tpList.length⟩) := by
  rw [RobinDispatcher.get, if_neg h]

/-- `j` calls later the index has moved on by `j`. -/
theorem gets_eq (h : d.tpList ≠ []) (requests : List Request) :
    gets d requests = (List.range requests.length).map fun j =>
      (d.tpList[(d.robinIdx + 1 + j) % d.tpList.length]?,
        (d.robinIdx + 1 + j) % d.tpList.length) := by
  induction requests generalizing d with
  | nil => rfl
  | cons r rest ih =>
    rw [gets, get_eq h, List.length_cons, List.range_succ_eq_map, List.map_cons, List.map_map]
    congr 1
    rw [ih (d := ⟨d.tpList, (d.robinIdx + 1) % d.tpList.length⟩) h]
    apply List.map_congr_left
    intro j _
    have hmod : ((d.robinIdx + 1) % d.tpList.length + 1 + j) % d.tpList.length =
        (d.robinIdx + 1 + (j + 1)) % d.tpList.length := by
      rw [Nat.add_assoc, Nat.mod_add_mod, Nat.add_comm 1 j]
    simp only [Function.comp_apply, hmod]

/-- In `k * n` numbers in a row each remainder of `n` comes up `k` times. -/
theorem count_mod (hi : i < n) (start k : Nat) :
    ((List.range (k * n)).map fun j => (start + j) % n).count i = k := by
  have hpos : 0 < n := Nat.lt_of_le_of_lt (Nat.zero_le i) hi
  -- the offset at which the remainder comes up first
  generalize hv : i + (n - start % n) = v
  have hoffset : start + v ≡ i [MOD n] := by
    have hle := (Nat.mod_lt start hpos).le
    have hdiv := Nat.div_add_mod start n
    have hsum : start + v = i + n * (start / n + 1) := by
      rw [Nat.mul_add, Nat.mul_one]
      omega
    rw [hsum]
    simp [Nat.ModEq]
  have hiff : ∀ j, (start + j) % n = i ↔ j ≡ v [MOD n] := by
    intro j
    constructor
    · intro h
      have hj : start + j ≡ i [MOD n] := by rw [Nat.ModEq, h, Nat.mod_eq_of_lt hi]
      exact Nat.ModEq.add_left_cancel' start (hj.trans hoffset.symm)
    · intro h
      have hj := (h.add_left start).trans hoffset
      rwa [Nat.ModEq, Nat.mod_eq_of_lt hi] at hj
  have hcount : ((List.range (k * n)).map fun j => (start + j) % n).count i =
      (k * n).count (· ≡ v [MOD n]) := by
    rw [List.count, List.countP_map, Nat.count]
    apply List.countP_congr
    intro j _
    simp only [Function.comp_apply, beq_iff_eq, decide_eq_true_eq]
    exact hiff j
  rw [hcount, Nat.count_modEq_card _ hpos, Nat.mul_div_cancel _ hpos, Nat.mul_mod_left]
  simp

/-- Null exactly for the empty list, and else a transport of it. -/
theorem get_result (d : RobinDispatcher T) (service method body : Bytes) :
    ((d.get service method body).1 = none ↔ d.tpList = []) ∧
    ∀ tp, (d.get service method body).1 = some tp → tp ∈ d.tpList := by
  by_cases h : d.tpList = []
  · simp [RobinDispatcher.get, h]
  · have hlt := Nat.mod_lt (d.robinIdx + 1) (List.length_pos_iff.mpr h)
    rw [get_eq h]
    constructor
    · simp only [List.getElem?_eq_getElem hlt, reduceCtorEq, h]
    · intro tp htp
      exact List.mem_of_getElem? htp

/-- Rounds of the list from wherever the index stands. -/
theorem gets_fair (h : d.tpList ≠ []) (k : Nat) (requests : List Request)
    (hlen : requests.length = k * d.tpList.length) :
    (∀ p ∈ gets d requests, p.2 < d.tpList.length ∧ p.1 = d.tpList[p.2]?) ∧
    ∀ i < d.tpList.length, ((gets d requests).map Prod.snd).count i = k := by
  rw [gets_eq h, hlen]
  constructor
  · intro p hp
    obtain ⟨j, -, rfl⟩ := List.mem_map.mp hp
    exact ⟨Nat.mod_lt _ (List.length_pos_iff.mpr h), rfl⟩
  · intro i hi
    rw [List.map_map]
    exact count_mod hi (d.robinIdx + 1) k

end Rounds

section Runs

variable [DecidableEq T]

/-- The index never passes the number of additions, so that it does not wrap around. -/
theorem robinIdx_le (ops : List (Op T)) : (after ops).robinIdx ≤ (history ops).added.length := by
  induction ops using List.reverseRecOn with
  | nil => exact Nat.zero_le _
  | append_singleton ops op ih =>
    rw [history_concat, after_concat]
    cases op with
    | add tp =>
      simp only [apply, RobinDispatcher.add, record, List.length_append]
      omega
    | del tp =>
      simp only [apply, RobinDispatcher.del, record]
      split <;> exact ih
    | get r =>
      by_cases h : (after ops).tpList = []
      · simpa [apply, record, RobinDispatcher.get, h] using ih
      · have hlt := Nat.mod_lt ((after ops).robinIdx + 1) (List.length_pos_iff.mpr h)
        have hsub := (List.diff_sublist (history ops).added (history ops).deleted).length_le
        rw [← tpList_after] at hsub
        rw [apply, get_eq h]
        simp only [record]
        omega

/-- After any calls the list is what the history says, `Get` returns null for an empty one
and a transport of any other, and `k` rounds of it visit each position `k` times. -/
theorem robin_fair (ops : List (Op T)) :
    (after ops).tpList = (history ops).added.diff (history ops).deleted ∧
    (∀ r : Request, (((after ops).get r.service r.method r.body).1 = none ↔
      (after ops).tpList = []) ∧
      ∀ tp, ((after ops).get r.service r.method r.body).1 = some tp → tp ∈ (after ops).tpList) ∧
    ∀ (k : Nat) (requests : List Request), (after ops).tpList ≠ [] →
      requests.length = k * (after ops).tpList.length →
      (∀ p ∈ gets (after ops) requests, p.2 < (after ops).tpList.length ∧
        p.1 = (after ops).tpList[p.2]?) ∧
      ∀ i < (after ops).tpList.length, ((gets (after ops) requests).map Prod.snd).count i = k := by
  refine ⟨tpList_after ops, fun r => get_result _ _ _ _, fun k requests hne hlen => ?_⟩
  exact gets_fair hne k requests hlen

/-- Three transports, and the last one goes while the index stands on it. -/
def shrunk : List (Op Nat) :=
  [.add 1, .add 2, .add 3, .get ⟨[], [], []⟩, .get ⟨[], [], []⟩, .del 3]

theorem robin_fair_shrunk : (after shrunk).robinIdx = 2 ∧ (after shrunk).tpList = [1, 2] ∧
    ∀ i < 2, ((gets (after shrunk) (List.replicate 4 ⟨[], [], []⟩)).map Prod.snd).count i = 2 := by
  have hlist : (after shrunk).tpList = [1, 2] := by decide
  have hfair :=
    (robin_fair shrunk).2.2 2 (List.replicate 4 ⟨[], [], []⟩)
      (by rw [hlist]; decide) (by rw [hlist]; rfl)
  rw [hlist] at hfair
  exact ⟨by decide, hlist, hfair.2⟩

end Runs

end Ucorf.DispatcherHistory
