import Ucorf.Message

/-!
# Dispatchers

A dispatcher holds the established transports and picks one for each call. The
round-robin dispatcher keeps them in order of addition.
-/
namespace Ucorf.Dispatcher

open Ucorf.Message

/-- `get` takes the service name, the method name and the request. -/
class IDispatcher (D : Type) (T : outParam Type) where
  add : D → T → D
  del : D → T → D
  get : D → Bytes → Bytes → Bytes → Option T × D

structure RobinDispatcher (T : Type) where
  tpList : List T
  robinIdx : Nat
  deriving DecidableEq, Repr

namespace RobinDispatcher

variable {T : Type}

def init : RobinDispatcher T := ⟨[], 0⟩

def add (d : RobinDispatcher T) (tp : T) : RobinDispatcher T :=
  { d with tpList := d.tpList ++ [tp] }

/-- Only the first occurrence goes. -/
def del [DecidableEq T] (d : RobinDispatcher T) (tp : T) : RobinDispatcher T :=
  { d with tpList := d.tpList.erase tp }

def get (d : RobinDispatcher T) (_service _method _request : Bytes) :
    Option T × RobinDispatcher T :=
  if d.tpList = [] then (none, d)
  else
    let idx := (d.robinIdx + 1) % d.tpList.length
    (d.tpList[idx]?, { d with robinIdx := idx })

theorem get_tpList (d : RobinDispatcher T) (service method request : Bytes) :
    (d.get service method request).2.tpList = d.tpList := by
  simp only [get]
  split <;> rfl

variable [DecidableEq T]

theorem count_add (d : RobinDispatcher T) (tp : T) :
    (d.add tp).tpList.count tp = d.tpList.count tp + 1 := by
  simp [add]

theorem count_add_other (d : RobinDispatcher T) {tp u : T} (h : u ≠ tp) :
    (d.add u).tpList.count tp = d.tpList.count tp := by
  simp [add, h]

theorem count_del (d : RobinDispatcher T) (tp : T) :
    (d.del tp).tpList.count tp = d.tpList.count tp - 1 := by
  simp [del]

theorem count_del_other (d : RobinDispatcher T) {tp u : T} (h : u ≠ tp) :
    (d.del u).tpList.count tp = d.tpList.count tp := by
  simp [del, List.count_erase_of_ne, h.symm]

end RobinDispatcher

instance {T : Type} [DecidableEq T] : IDispatcher (RobinDispatcher T) T where
  add := RobinDispatcher.add
  del := RobinDispatcher.del
  get := RobinDispatcher.get

end Ucorf.Dispatcher
