import Ucorf.HashDispatch

/-!
# Requests stay with their transports

With a hash function of its own a `HashDispatcher` gives a request to the transport whose
point comes next on the ring. While other transports come and go, the points that the search
meets before that one are points of transports which came since.
-/
namespace Ucorf.HashRouting

open Ucorf.Conhash hiding step
open Ucorf.ConhashHistory
open Ucorf.HashDispatch
open Ucorf.Message
open Ucorf.Ring
open Ucorf.Threads

variable {T : Type} {hash : Bytes → Nat}

/-- With the hash function a request looks up its code. -/
theorem get_hashFn {d : HashDispatcher T} {fn : Bytes → Bytes → Bytes → Nat}
    (hfn : d.hashFn = some fn) (service method request : Bytes) :
    (d.get hash service method request).1 = d.conhashTable.hget (fn service method request) := by
  rw [get_eq, HashDispatcher.hashcode, hfn]

section Points

/-- What is found is the transport `tp`, or one of those that have been added. -/
def Allowed (tp : T) (added : List (Call T)) (x : Nat × Option T) : Prop :=
  x.2 = some tp ∨ ∃ tp', .add tp' ∈ added ∧ x.2 = some tp'

/-- A transport that came once has come. -/
theorem Allowed.mono {tp : T} {added : List (Call T)} {x : Nat × Option T} (hx : Allowed tp added x)
    (call : Call T) : Allowed tp (added ++ [call]) x := by
  obtain hsame | ⟨tp', hadd, hvalue⟩ := hx
  · exact .inl hsame
  · exact .inr ⟨tp', List.mem_append_left _ hadd, hvalue⟩

variable [ITransportClient T]

/-- The hash code of a transport's key. -/
def codeOf (hash : Bytes → Nat) (d : HashDispatcher T) (tp : T) : Nat := hash (d.getHashKey tp)

/-- Every point has a transport, under the code of its key. -/
structure Keyed (hash : Bytes → Nat) (d : HashDispatcher T) : Prop where
  inv : Inv d.conhashTable
  point : ∀ p c v, d.conhashTable.points p = some (c, v) → ∃ tp, v = some tp ∧ codeOf hash d tp = c

variable {d : HashDispatcher T} {tp : T}

/-- `Add` puts virtual nodes of the transport on the ring, and changes nothing else there. -/
theorem add_spec (hd : Keyed hash d) (tp : T) : Inv (d.add hash tp).conhashTable ∧
    Added d.conhashTable.points (d.add hash tp).conhashTable.points (codeOf hash d tp) (some tp) :=
  insert_spec hd.inv _ _ _ _

/-- `Del` takes off the virtual nodes with the hash code of the transport. -/
theorem del_spec (hd : Keyed hash d) (tp : T) : Inv (d.del hash tp).conhashTable ∧
    Removed d.conhashTable.points (d.del hash tp).conhashTable.points (codeOf hash d tp) :=
  erase_spec hd.inv _ _

theorem keyed_add (hd : Keyed hash d) (tp : T) : Keyed hash (d.add hash tp) := by
  obtain ⟨hinv, hadded⟩ := add_spec hd tp
  refine ⟨hinv, ?_⟩
  intro p c v hp
  obtain hsame | ⟨-, hnew⟩ := hadded p
  · rw [hsame] at hp
    exact hd.point p c v hp
  · rw [hnew] at hp
    cases hp
    exact ⟨tp, rfl, rfl⟩

theorem keyed_del (hd : Keyed hash d) (tp : T) : Keyed hash (d.del hash tp) := by
  obtain ⟨hinv, hremoved⟩ := del_spec hd tp
  refine ⟨hinv, ?_⟩
  intro p c v hp
  refine hd.point p c v ?_
  by_cases howned : ∃ w, d.conhashTable.points p = some (codeOf hash d tp, w)
  · obtain ⟨w, hw⟩ := howned
    rw [(hremoved p).1 w hw] at hp
    cases hp
  · rw [← (hremoved p).2 (not_exists.mp howned), hp]

theorem codeOf_eq {d d' : HashDispatcher T} (h : d'.hashTagFn = d.hashTagFn) (tp : T) :
    codeOf hash d' tp = codeOf hash d tp := by
  rw [codeOf, codeOf, HashDispatcher.getHashKey, HashDispatcher.getHashKey, h]

end Points

section Runs

variable [ITransportClient T] [DecidableEq T] {virCount : Nat} {hashTagFn : Option (Bytes → Bytes)}
  {s s' : Routing T} {calls : List (Call T)}

/-- Every call keeps the dispatcher keyed by its hash function. -/
theorem keyed_step {call : Call T} (hd : Keyed hash s.dispatcher) (h : step hash s call = some s') :
    Keyed hash s'.dispatcher := by
  cases call with
  | add tp =>
    cases h
    exact keyed_add hd tp
  | del tp =>
    simp only [step] at h
    split at h
    · cases h
      exact keyed_del hd tp
    · cases h
  | get service method request =>
    obtain ⟨hashIdx, hsame⟩ := get_same hash s.dispatcher service method request
    simp only [step, hsame] at h
    cases h
    exact ⟨hd.inv, hd.point⟩
  | setHashFunction fn =>
    cases h
    exact ⟨hd.inv, hd.point⟩

theorem keyed_run (h : run (step hash) (start virCount hashTagFn) calls = some s) :
    Keyed hash s.dispatcher := by
  refine run_invariant (I := fun s : Routing T => Keyed hash s.dispatcher) ⟨inv_empty, ?_⟩
    (fun m call m' hm hstep => keyed_step hm hstep) h
  intro p c v hp
  simp [start, HashDispatcher.init, ConHashtable.points, ConHashtable.empty] at hp

/-- The point at `p` keeps the requests of the code `h` from every transport that was there
before. -/
structure Sticks (hash : Bytes → Nat) (d : HashDispatcher T) (h p : Nat)
    (tp : T) (added : List (Call T)) (s : Routing T) : Prop where
  keyed : Keyed hash s.dispatcher
  settings : s.dispatcher.hashFn = d.hashFn ∧ s.dispatcher.hashTagFn = d.hashTagFn
  point : s.dispatcher.conhashTable.points p = some (codeOf hash d tp, some tp)
  shielded : Shielded s.dispatcher.conhashTable.points h p (Allowed tp added)

variable {d : HashDispatcher T} {h p : Nat} {tp : T} {added : List (Call T)}

/-- A call that neither sets the hash function nor deletes a transport of that code. -/
def Spares (hash : Bytes → Nat) (d : HashDispatcher T) (tp : T) : Call T → Prop
  | .del tp' => codeOf hash d tp' ≠ codeOf hash d tp
  | .setHashFunction _ => False
  | _ => True

/-- A call that spares the transport moves the request to a newcomer at most. -/
theorem sticks_step {call : Call T} (hs : Sticks hash d h p tp added s)
    (hspares : Spares hash d tp call)
    (hstep : step hash s call = some s') : Sticks hash d h p tp (added ++ [call]) s' := by
  have hkeyed := keyed_step hs.keyed hstep
  cases call with
  | add tp' =>
    cases hstep
    obtain ⟨-, hadded⟩ := add_spec hs.keyed tp'
    refine ⟨hkeyed, hs.settings, ?_, ?_⟩
    · obtain hsame | ⟨hfree, -⟩ := hadded p
      · exact hsame.trans hs.point
      · rw [hs.point] at hfree
        cases hfree
    · refine (Shielded.added ⟨hs.shielded.place, ?_⟩ hadded ?_)
      · exact fun q x hq hbefore => (hs.shielded.before q x hq hbefore).mono _
      · exact .inr ⟨tp', by simp, rfl⟩
  | del tp' =>
    simp only [step] at hstep
    split at hstep
    · cases hstep
      obtain ⟨-, hremoved⟩ := del_spec hs.keyed tp'
      have hother : ∀ v, s.dispatcher.conhashTable.points p ≠
          some (codeOf hash s.dispatcher tp', v) := by
        intro v hv
        rw [hs.point] at hv
        have hcode : codeOf hash d tp = codeOf hash s.dispatcher tp' :=
          congrArg Prod.fst (Option.some.inj hv)
        rw [codeOf_eq hs.settings.2] at hcode
        exact hspares hcode.symm
      refine ⟨hkeyed, hs.settings, ((hremoved p).2 hother).trans hs.point, ?_⟩
      refine Shielded.removed ⟨hs.shielded.place, ?_⟩ hremoved hother
      exact fun q x hq hbefore => (hs.shielded.before q x hq hbefore).mono _
    · cases hstep
  | get service method request =>
    obtain ⟨hashIdx, hsame⟩ := get_same hash s.dispatcher service method request
    simp only [step, hsame] at hstep
    cases hstep
    refine ⟨hkeyed, hs.settings, hs.point, hs.shielded.place, ?_⟩
    exact fun q x hq hbefore => (hs.shielded.before q x hq hbefore).mono _
  | setHashFunction fn => exact absurd hspares not_false

/-- So does a run of such calls, with the newcomers of the whole run. -/
theorem sticks_run (hs : Sticks hash d h p tp [] s)
    (hspares : ∀ call ∈ calls, Spares hash d tp call)
    (hrun : run (step hash) s calls = some s') : Sticks hash d h p tp calls s' := by
  refine trace_invariant (I := fun acts m => (∀ call ∈ acts, Spares hash d tp call) →
    Sticks hash d h p tp acts m) (fun _ => hs) ?_ hrun hspares
  intro acts m call m' _ ih hstep hall
  exact sticks_step (ih fun c hc => hall c (List.mem_append_left _ hc)) (hall call (by simp)) hstep

omit [DecidableEq T] in
/-- The point that answers a request is the one that it sticks to. -/
theorem sticks_of_get {code : Nat} (hkeyed : Keyed hash s.dispatcher)
    (hget : s.dispatcher.conhashTable.hget code = some tp) :
    ∃ p, Sticks hash s.dispatcher code p tp [] s := by
  obtain ⟨-, hdefault, -⟩ | ⟨c, hfound, -⟩ := owned_or_empty hkeyed.inv code
  · rw [hget] at hdefault
    cases hdefault
  · rw [hget] at hfound
    obtain ⟨p, hselects, hpoint⟩ := hfound
    obtain ⟨tp', hvalue, hcode⟩ := hkeyed.point p c _ hpoint
    cases hvalue
    rw [← hcode] at hpoint
    exact ⟨p, hkeyed, ⟨rfl, rfl⟩, hpoint, shielded_of_selects hselects hpoint (.inl rfl)⟩

/-- Whatever transports come and go, a request stays with its transport or goes to one that came
since, until a transport whose key has the hash code of that one is deleted. -/
theorem requests_stick (before after : List (Call T)) {fn : Bytes → Bytes → Bytes → Nat}
    (service method request : Bytes)
    (hrun : run (step hash) (start virCount hashTagFn) before = some s)
    (hrun' : run (step hash) s after = some s') (hfn : s.dispatcher.hashFn = some fn)
    (hget : (s.dispatcher.get hash service method request).1 = some tp)
    (hspares : ∀ call ∈ after, Spares hash s.dispatcher tp call) :
    (s'.dispatcher.get hash service method request).1 = some tp ∨
      ∃ tp', .add tp' ∈ after ∧ (s'.dispatcher.get hash service method request).1 = some tp' := by
  rw [get_hashFn hfn] at hget
  obtain ⟨p, hstart⟩ := sticks_of_get (keyed_run hrun) hget
  have hend := sticks_run hstart hspares hrun'
  rw [get_hashFn (hend.settings.1.trans hfn)]
  obtain ⟨-, -, hempty⟩ | ⟨c, hfound, -⟩ :=
    owned_or_empty hend.keyed.inv (fn service method request)
  · have hpoint := hend.point
    rw [hempty p] at hpoint
    cases hpoint
  · exact hend.shielded.found hfound

/-- The requests of this function all have the code zero. -/
def zeroFn : Bytes → Bytes → Bytes → Nat := fun _ _ _ => 0

def comings : List (Call Conn) := [.setHashFunction zeroFn, .add ⟨0, [65]⟩, .add ⟨1, [66]⟩]

def goings : List (Call Conn) := [.add ⟨2, [67]⟩, .del ⟨1, [66]⟩]

def come : Routing Conn :=
  ⟨(((HashDispatcher.init 2 none).setHashFunction zeroFn).add sampleHash.string ⟨0, [65]⟩).add
    sampleHash.string ⟨1, [66]⟩, [⟨1, [66]⟩, ⟨0, [65]⟩]⟩

def gone : Routing Conn :=
  ⟨(come.dispatcher.add sampleHash.string ⟨2, [67]⟩).del sampleHash.string ⟨1, [66]⟩,
    [⟨2, [67]⟩, ⟨0, [65]⟩]⟩

theorem requests_stick_goings :
    run (step sampleHash.string) (start 2 none) comings = some come ∧
      run (step sampleHash.string) come goings = some gone ∧
      (come.dispatcher.get sampleHash.string [] [] []).1 = some ⟨0, [65]⟩ ∧
      ((gone.dispatcher.get sampleHash.string [] [] []).1 = some ⟨0, [65]⟩ ∨
        ∃ tp', .add tp' ∈ goings ∧
        (gone.dispatcher.get sampleHash.string [] [] []).1 = some tp') := by
  have hrun : run (step sampleHash.string) (start 2 none) comings = some come := rfl
  have hrun' : run (step sampleHash.string) come goings = some gone := rfl
  have hget : (come.dispatcher.get sampleHash.string [] [] []).1 = some ⟨0, [65]⟩ := by
    decide +kernel
  refine ⟨hrun, hrun', hget, requests_stick comings goings [] [] [] hrun hrun' rfl hget ?_⟩
  simp only [goings, List.forall_mem_cons, Spares]
  exact ⟨trivial, by decide +kernel, fun call hcall => nomatch hcall⟩

end Runs

end Ucorf.HashRouting
