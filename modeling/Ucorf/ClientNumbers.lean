import Ucorf.ClientInvariant

/-!
# Message numbers and the keys of the maps

A call's number is its position in the order of the draws, modulo 2^64. A call keeps
its entry in the map of its group as long as no later call used the same key, which
takes 2^64 draws.
-/
namespace Ucorf.ClientNumbers

open Ucorf.Message
open Ucorf.Dispatcher
open Ucorf.Threads
open Ucorf.Client
open Ucorf.ClientSections
open Ucorf.ClientInvariant

section Draws

variable {T : Type}

def drawOf : Action (Thread T) Label → Option Nat
  | .run i (.number true) => some i
  | _ => none

/-- The calls that took a number, in the order of `++msg_id_`. -/
def draws (acts : List (Action (Thread T) Label)) : List Nat := acts.filterMap drawOf

/-- A draw is the section of `Call` that finds its transport established. -/
theorem drawOf_eq_some {act : Action (Thread T) Label} {i : Nat} (h : drawOf act = some i) :
    act = .run i (.number true) := by
  unfold drawOf at h
  split at h <;> cases h
  rfl

theorem drawOf_run_ne {j : Nat} {a : Label} (h : a ≠ .number true) :
    drawOf (.run j a : Action (Thread T) Label) = none := by
  cases hd : drawOf (.run j a : Action (Thread T) Label) with
  | none => rfl
  | some i =>
    cases drawOf_eq_some hd
    exact absurd rfl h

/-- Who has drawn is who ran that section. -/
theorem mem_draws {acts : List (Action (Thread T) Label)} {i : Nat} :
    i ∈ draws acts ↔ .run i (.number true) ∈ acts := by
  constructor
  · intro h
    obtain ⟨act, hact, hi⟩ := List.mem_filterMap.mp h
    rwa [← drawOf_eq_some hi]
  · intro h
    exact List.mem_filterMap.mpr ⟨_, h, rfl⟩

theorem draws_snoc (acts : List (Action (Thread T) Label)) (act : Action (Thread T) Label) :
    draws (acts ++ [act]) = draws acts ++ (drawOf act).toList := by
  cases h : drawOf act <;> simp [draws, h]

end Draws

variable {D T : Type} [DecidableEq T] [IDispatcher D T] {cfg : Config}

section Numbers

variable {d : D} {s s' : State D T} {acts : List (Action (Thread T) Label)}
    {act : Action (Thread T) Label}

/-- A call that drew has drawn. -/
theorem drawn_of_mem (h : run (program cfg D T).step (start d) acts = some s) {i : Nat}
    (hi : i ∈ draws acts)
    {args : CallArgs} {pc : CallPc T} (ht : s.threads[i]? = some (.call args pc)) :
    pc.drawn = true := by
  suffices hdone : ∃ t, s.threads[i]? = some t ∧ ∀ args pc, t = .call args pc → pc.drawn = true by
    obtain ⟨t, ht', hq⟩ := hdone
    exact hq args pc (Option.some.inj (ht'.symm.trans ht))
  refine after_label ?_ ?_ h (mem_draws.mp hi)
  · intro sh j t sh' t' new hn args pc' he
    subst he
    obtain ⟨pc, rfl, hc⟩ := call_section (next_section hn).1
    exact (number_section hc).2.1
  · intro sh j t b sh' t' new hq hn args pc' he
    subst he
    obtain ⟨pc, rfl, hc⟩ := call_section (next_section hn).1
    exact drawn_kept hc (hq args pc rfl)

/-- The counter and the numbers of the calls, as draws of the schedule. -/
structure Numbered (acts : List (Action (Thread T) Label)) (s : State D T) : Prop where
  counter : s.shared.msgId = (draws acts).length % 2 ^ 64
  nodup : (draws acts).Nodup
  number : ∀ (i : Nat) args pc id, s.threads[i]? = some (.call args pc) → pc.number = some id →
    ∃ n, (draws acts)[n]? = some i ∧ id = (n + 1) % 2 ^ 64

/-- A step takes at most one number, for a call that had none. -/
theorem draw_step (hrun : run (program cfg D T).step (start d) acts = some s)
    (h : (program cfg D T).step s act = some s') :
    (drawOf act = none ∧ s'.shared.msgId = s.shared.msgId) ∨
      ∃ j, act = .run j (.number true) ∧ drawOf act = some j ∧ j ∉ draws acts ∧
        s'.shared.msgId = (s.shared.msgId + 1) % 2 ^ 64 := by
  rcases step_cases h with ⟨u, rfl, hu, rfl⟩ | ⟨j, a, t, t', rfl, ht, hs, hthreads⟩
  · exact .inl ⟨rfl, rfl⟩
  · rcases msgId_section hs with ⟨ha, hmsg⟩ | ⟨args, pc, pc', rfl, rfl, rfl, hc⟩
    · exact .inl ⟨drawOf_run_ne ha, hmsg⟩
    · obtain ⟨hfresh, -, hmsg⟩ := number_section hc
      refine .inr ⟨j, rfl, rfl, ?_, hmsg⟩
      intro hmem
      rw [drawn_of_mem hrun hmem ht] at hfresh
      cases hfresh

/-- The next draw gives the next number. -/
theorem numbered_step (hrun : run (program cfg D T).step (start d) acts = some s)
    (hn : Numbered acts s)
    (h : (program cfg D T).step s act = some s') : Numbered (acts ++ [act]) s' := by
  have hdraw := draw_step hrun h
  have hcounter : s'.shared.msgId = (draws (acts ++ [act])).length % 2 ^ 64 := by
    rw [draws_snoc]
    rcases hdraw with ⟨hnone, hmsg⟩ | ⟨j, -, hsome, -, hmsg⟩
    · rw [hmsg, hn.counter, hnone]
      simp
    · rw [hmsg, hn.counter, hsome, Nat.mod_add_mod]
      simp
  constructor
  · exact hcounter
  · rw [draws_snoc]
    rcases hdraw with ⟨hnone, -⟩ | ⟨j, -, hsome, hfresh, -⟩
    · simpa [hnone] using hn.nodup
    · rw [hsome]
      refine List.nodup_append.mpr ⟨hn.nodup, by simp, ?_⟩
      rintro i hi k hk rfl
      exact hfresh (by simpa [List.mem_singleton.mp hk] using hi)
  · intro i args pc id ht hid
    have hold {pc₀ : CallPc T} (ht₀ : s.threads[i]? = some (.call args pc₀))
        (hid₀ : pc₀.number = some id) :
          ∃ n, (draws (acts ++ [act]))[n]? = some i ∧ id = (n + 1) % 2 ^ 64 := by
      obtain ⟨n, hi, he⟩ := hn.number i args pc₀ id ht₀ hid₀
      obtain ⟨hlt, -⟩ := List.getElem?_eq_some_iff.mp hi
      exact ⟨n, by rw [draws_snoc, List.getElem?_append_left hlt, hi], he⟩
    rcases thread_back h ht with ⟨ht₀, -⟩ | ⟨a, t, rfl, ht₀, hs⟩ | ⟨-, hstart, -⟩
    · exact hold ht₀ hid
    · obtain ⟨pc₀, rfl, hc⟩ := call_section hs
      rcases number_back hc hid with hid₀ | ⟨rfl, rfl⟩
      · exact hold ht₀ hid₀
      · refine ⟨(draws acts).length, ?_, ?_⟩
        · rw [draws_snoc, List.getElem?_append_right le_rfl]
          simp [drawOf]
        · rw [hcounter, draws_snoc]
          simp [drawOf]
    · cases start_call hstart
      cases hid

/-- In every run the n-th draw gives the number `n`, modulo 2^64. -/
theorem numbered (h : run (program cfg D T).step (start d) acts = some s) : Numbered acts s := by
  refine trace_invariant ?_ (fun _ _ _ _ hrun hn hstep => numbered_step hrun hn hstep) h
  constructor
  · rfl
  · exact List.nodup_nil
  · simp [start]

/-- The call that drew `n`-th has the number `n` modulo 2^64. -/
theorem msgId_of_draw (h : run (program cfg D T).step (start d) acts = some s)
    {i n : Nat} {r : Reg T}
    (hr : HasGroup s i r) (hn : (draws acts)[n]? = some i) : r.msgId = (n + 1) % 2 ^ 64 := by
  obtain ⟨args, pc, ht, hpc⟩ := hr
  obtain ⟨m, hm, he⟩ := (numbered h).number i args pc r.msgId ht (CallPc.number_of_group hpc)
  obtain ⟨hlt, -⟩ := List.getElem?_eq_some_iff.mp hm
  obtain rfl : m = n := (List.getElem?_inj hlt (numbered h).nodup).mp (hm.trans hn.symm)
  exact he

/-- Up to 2^64 draws all numbers differ. -/
theorem msgId_inj (h : run (program cfg D T).step (start d) acts = some s)
    (hlen : (draws acts).length ≤ 2 ^ 64)
    {i j : Nat} {r r' : Reg T} (hr : HasGroup s i r) (hr' : HasGroup s j r')
    (he : r.msgId = r'.msgId) : i = j := by
  obtain ⟨args, pc, ht, hpc⟩ := hr
  obtain ⟨args', pc', ht', hpc'⟩ := hr'
  obtain ⟨n, hn, hid⟩ := (numbered h).number i args pc r.msgId ht (CallPc.number_of_group hpc)
  obtain ⟨m, hm, hid'⟩ := (numbered h).number j args' pc' r'.msgId ht' (CallPc.number_of_group hpc')
  obtain ⟨hnlt, -⟩ := List.getElem?_eq_some_iff.mp hn
  obtain ⟨hmlt, -⟩ := List.getElem?_eq_some_iff.mp hm
  obtain rfl : n = m := by omega
  exact Option.some.inj (hn.symm.trans hm)

end Numbers

section Keys

variable {d : D} {s s' : State D T} {acts : List (Action (Thread T) Label)}
    {act : Action (Thread T) Label}

/-- Another call used the key of `r` in the same map after call `i` had registered it. -/
def Reused (acts : List (Action (Thread T) Label)) (s : State D T) (i : Nat) (r : Reg T) : Prop :=
  ∃ k r', k ≠ i ∧ Registered s k r' ∧ r'.grp = r.grp ∧ r'.msgId = r.msgId ∧
    (Before acts (.run i .register) (.run k .register) ∨
      Before acts (.run i .register) (.run k .erase))

def Unerased (s : State D T) (i : Nat) (r : Reg T) : Prop :=
  ∃ args pc, s.threads[i]? = some (.call args pc) ∧ pc.unerased = some r

omit [DecidableEq T] [IDispatcher D T] in
theorem Unerased.registered {i : Nat} {r : Reg T} (h : Unerased s i r) : Registered s i r := by
  obtain ⟨args, pc, ht, hr⟩ := h
  exact ⟨args, pc, ht, CallPc.registration_of_unerased hr⟩

/-- A key is taken by registering. -/
theorem unerased_step_back (h : (program cfg D T).step s act = some s') {i : Nat} {r : Reg T}
    (hr : Unerased s' i r) :
    Unerased s i r ∨
    (act = .run i .register ∧ ∃ args, s.threads[i]? = some (.call args (.grouped r))) := by
  obtain ⟨args, pc, ht, hpc⟩ := hr
  rcases thread_back h ht with ⟨ht', -⟩ | ⟨a, t, rfl, ht', hs⟩ | ⟨-, hstart, -⟩
  · exact .inl ⟨args, pc, ht', hpc⟩
  · obtain ⟨pc₀, rfl, hc⟩ := call_section hs
    rcases unerased_back hc hpc with hold | ⟨rfl, rfl, rfl⟩
    · exact .inl ⟨args, pc₀, ht', hold⟩
    · exact .inr ⟨rfl, args, ht'⟩
  · cases start_call hstart
    cases hpc

/-- What was reused stays so. -/
theorem reused_mono (h : (program cfg D T).step s act = some s') {i : Nat} {r : Reg T}
    (hr : Reused acts s i r) :
    Reused (acts ++ [act]) s' i r := by
  obtain ⟨k, r', hk, hreg, hg, hid, hbefore⟩ := hr
  refine ⟨k, r', hk, registered_kept h hreg, hg, hid, ?_⟩
  rcases hbefore with hb | hb
  · exact .inl (before_snoc.mpr (.inl hb))
  · exact .inr (before_snoc.mpr (.inl hb))

/-- Whoever registers a key leaves its own channel there. -/
theorem register_step (h : (program cfg D T).step s act = some s') {k : Nat} {r : Reg T}
    (hact : act = .run k .register) (hr : Registered s' k r)
    (hnew : ¬ Registered s k r) (ch : Nat) :
    Entry s'.shared r.grp r.msgId ch ↔ ch = r.chan := by
  rcases registered_back h hr with hold | ⟨-, args, ht, ht'⟩
  · exact absurd hold hnew
  · rcases thread_next h ht with ⟨-, hne⟩ | ⟨a, t', ha, ht'', hs⟩
    · exact absurd hact (hne _)
    · rw [ht'] at ht''
      cases ht''
      obtain ⟨pc, he, hc⟩ := call_section hs
      cases he
      rw [hact] at ha
      cases ha
      exact register_entry hc

/-- The entry of a call is its own. -/
def OwnEntry (s : State D T) (r : Reg T) : Prop := Entry s.shared r.grp r.msgId r.chan

section OwnStep

variable {i : Nat} {r : Reg T}

/-- Right after it is registered a call has the key. -/
theorem own_fresh (hrun : run (program cfg D T).step (start d) acts = some s)
    (h : (program cfg D T).step s act = some s') (hact : act = .run i .register) {args : CallArgs}
    (ht : s.threads[i]? = some (.call args (.grouped r))) (hr : Registered s' i r) :
    OwnEntry s' r ∧ ¬ Reused (acts ++ [act]) s' i r := by
  have hnew : ¬ Registered s i r := by
    rintro ⟨args', pc, ht', hpc⟩
    rw [ht] at ht'
    cases ht'
    cases hpc
  have hfirst : .run i .register ∉ acts := by
    intro hmem
    have hdecided := register_done hrun hmem ht
    cases hdecided
  constructor
  · exact (register_step h hact hr hnew r.chan).mpr rfl
  · subst hact
    rintro ⟨k, r', hk, -, -, -, hb | hb⟩
    · rcases before_snoc.mp hb with hb | ⟨he, -⟩
      · exact hfirst hb.mem_left
      · cases he
        exact hk rfl
    · rcases before_snoc.mp hb with hb | ⟨he, -⟩
      · exact hfirst hb.mem_left
      · cases he

/-- A key that leads to the call that registered it has led to it before. -/
theorem own_back (hw : Wired s) (h : (program cfg D T).step s act = some s') (hr : Unerased s i r)
    (he : OwnEntry s' r) : OwnEntry s r := by
  rcases step_cases h with ⟨u, rfl, hu, rfl⟩ | ⟨j, a, t, t', rfl, ht, hs, hthreads⟩
  · exact he
  · rcases entry_back hs he with hold | ⟨args, r', rfl, rfl, rfl, -, -, hch, -⟩
    · exact hold
    · -- the channel would be registered a second time by its owner
      obtain rfl := hw.distinct j i r' r ⟨args, _, ht, rfl⟩ hr.registered.hasGroup hch
      obtain ⟨args', pc, ht', hpc⟩ := hr
      rw [ht] at ht'
      cases ht'
      cases hpc

theorem not_reused_of_own (hw' : Wired s') (h : (program cfg D T).step s act = some s')
    (hr : Unerased s i r) (hn : ¬ Reused acts s i r) (he : OwnEntry s' r) :
    ¬ Reused (acts ++ [act]) s' i r := by
  rintro ⟨k, r', hk, hreg', hg, hid, hb⟩
  by_cases hreg : Registered s k r'
  · -- the other call had registered before: it cannot register again,
    -- and its erasure clears the key
    have hsection : act = .run k .register ∨ act = .run k .erase := by
      rcases hb with hb | hb
      · rcases before_snoc.mp hb with hb | ⟨hact, -⟩
        · exact absurd ⟨k, r', hk, hreg, hg, hid, .inl hb⟩ hn
        · exact .inl hact
      · rcases before_snoc.mp hb with hb | ⟨hact, -⟩
        · exact absurd ⟨k, r', hk, hreg, hg, hid, .inr hb⟩ hn
        · exact .inr hact
    obtain ⟨args, pc, ht, hpc⟩ := hreg
    rcases thread_next h ht with ⟨-, hne⟩ | ⟨a, t', rfl, ht', hs⟩
    · rcases hsection with rfl | rfl <;> exact absurd rfl (hne _)
    · cases hs with
      | call hc =>
        rcases hsection with hact | hact <;> cases hact
        · obtain ⟨x, rfl⟩ := register_source hc
          cases hpc
        · obtain ⟨x, rsp, rfl, -⟩ := erase_source hc
          cases hpc
          rw [OwnEntry, ← hg, ← hid] at he
          exact erase_absent hc he
  · have hact : act = .run k .register := by
      rcases registered_back h hreg' with hold | ⟨hact, -⟩
      · exact absurd hold hreg
      · exact hact
    rw [OwnEntry, ← hg, ← hid] at he
    have hch := (register_step h hact hreg' hreg r.chan).mp he
    exact hk (hw'.distinct k i r' r hreg'.hasGroup
      (registered_kept h hr.registered).hasGroup hch.symm)

/-- Nobody but another call with the same key takes it away. -/
theorem own_of_not_reused (hrun : run (program cfg D T).step (start d) acts = some s)
    (h : (program cfg D T).step s act = some s') (hr : Unerased s i r) (hr' : Unerased s' i r)
    (he : OwnEntry s r)
    (hn : ¬ Reused (acts ++ [act]) s' i r) : OwnEntry s' r := by
  have hmem := register_mem hrun hr.registered
  rcases step_cases h with ⟨u, rfl, hu, rfl⟩ | ⟨j, a, t, t', rfl, ht, hs, hthreads⟩
  · exact he
  · obtain ⟨hlt, -⟩ := List.getElem?_eq_some_iff.mp ht
    have ht' : s'.threads[j]? = some t' := by rw [hthreads, List.getElem?_set_self hlt]
    rcases entry_kept hs he with hkept | ⟨args, r', rfl, rfl, rfl, hg, hid⟩ |
      ⟨args, r', rsp, rfl, rfl, hg, hid⟩
    · exact hkept
    · refine absurd ⟨j, r', ?_, ⟨args, _, ht', rfl⟩, hg, hid,
        .inl (before_snoc.mpr (.inr ⟨rfl, hmem⟩))⟩ hn
      rintro rfl
      obtain ⟨args', pc, ht₀, hpc⟩ := hr
      rw [ht] at ht₀
      cases ht₀
      cases hpc
    · have hreg : Registered s' j r' := registered_kept h ⟨args, _, ht, rfl⟩
      refine absurd ⟨j, r', ?_, hreg, hg, hid, .inr (before_snoc.mpr (.inr ⟨rfl, hmem⟩))⟩ hn
      rintro rfl
      obtain ⟨args', pc, ht₀, hpc⟩ := hr'
      rw [ht'] at ht₀
      cases ht₀
      obtain ⟨pc₀, he₀, hc⟩ := call_section hs
      obtain ⟨x, rsp', -, hnone⟩ := erase_source hc
      rw [hnone] at hpc
      cases hpc

end OwnStep

/-- A call keeps its entry exactly as long as no other call has used its key since. -/
theorem own_iff (h : run (program cfg D T).step (start d) acts = some s) {i : Nat} {r : Reg T}
    (hr : Unerased s i r) : OwnEntry s r ↔ ¬ Reused acts s i r := by
  refine trace_invariant (I := fun acts s => ∀ i r, Unerased s i r →
    (OwnEntry s r ↔ ¬ Reused acts s i r))
    ?_ ?_ h i r hr
  · rintro i r ⟨args, pc, ht, -⟩
    simp [start] at ht
  · intro pre m act m' hrun hown hstep i r hr
    have hw := wired hrun
    rcases unerased_step_back hstep hr with hold | ⟨hact, args, ht⟩
    · constructor
      · intro he
        have hn := (hown i r hold).mp (own_back hw hstep hold he)
        exact not_reused_of_own (wired_step m act m' hw hstep) hstep hold hn he
      · intro hn
        have hn₀ : ¬ Reused pre m i r := fun hre => hn (reused_mono hstep hre)
        exact own_of_not_reused hrun hstep hold hr ((hown i r hold).mpr hn₀) hn
    · obtain ⟨he, hn⟩ := own_fresh hrun hstep hact ht hr.registered
      exact ⟨fun _ => hn, fun _ => he⟩

/-- Up to 2^64 draws no key is used twice. -/
theorem not_reused (h : run (program cfg D T).step (start d) acts = some s)
    (hlen : (draws acts).length ≤ 2 ^ 64)
    {i : Nat} {r : Reg T} (hr : Registered s i r) : ¬ Reused acts s i r := by
  rintro ⟨k, r', hk, hreg, -, hid, -⟩
  exact hk (msgId_inj h hlen hreg.hasGroup hr.hasGroup hid)

end Keys

section Samples

def oneway : CallArgs := ⟨[], [], [], none⟩

/-- Thread `i` is a one-way call that runs to its end. -/
def onewayCall (i : Nat) : List (Action (Thread Nat) Label) :=
  [.spawn (.call oneway .entered), .run i .window, .run i .get, .run i (.number true),
    .run i (.sendResult .ok)]

def onewayCalls (i : Nat) : Nat → List (Action (Thread Nat) Label)
  | 0 => []
  | n + 1 => onewayCall i ++ onewayCalls (i + 1) n

theorem solo_call {args : CallArgs} {sh sh' : ClientImpl (RobinDispatcher Nat) Nat}
    {pc pc' : CallPc Nat}
    {a : Label} (j : Nat) (h : callNext sampleConfig args sh pc a = some (sh', pc')) :
    (program sampleConfig (RobinDispatcher Nat) Nat).solo j (sh, .call args pc) a =
      some (sh', .call args pc') := by
  simp only [Program.solo, program, threadNext, h, Option.map_some]

/-- A call up to its `++msg_id_`, when transport 0 is the only one. -/
theorem run_number (args : CallArgs) (j : Nat) {sh : ClientImpl (RobinDispatcher Nat) Nat}
    (hd : sh.dispatcher = ⟨[0], 0⟩) (hw : sh.wndSize ≤ 10) :
    run ((program sampleConfig (RobinDispatcher Nat) Nat).solo j) (sh, .call args .entered)
      [.window, .get, .number true] =
      some ({ sh with msgId := (sh.msgId + 1) % 2 ^ 64 },
        .call args (if args.response.isSome then .numbered 0 ((sh.msgId + 1) % 2 ^ 64)
          else .posted)) := by
  have hwindow : callNext sampleConfig args sh .entered .window = some (sh, .dispatching) :=
    if_neg (Nat.not_lt.mpr hw)
  have hget : callNext sampleConfig args sh .dispatching .get = some (sh, .picked (some 0)) := by
    obtain ⟨d, channels, msgId, wndSize, groups, chans⟩ := sh
    subst hd
    simp [callNext, IDispatcher.get, RobinDispatcher.get]
  rw [run_cons, solo_call j hwindow, Option.bind_some, run_cons, solo_call j hget, Option.bind_some]
  rfl

theorem run_onewayCall {sh : ClientImpl (RobinDispatcher Nat) Nat} {threads : List (Thread Nat)}
    (hd : sh.dispatcher = ⟨[0], 0⟩) (hw : sh.wndSize ≤ 10) :
    run (program sampleConfig (RobinDispatcher Nat) Nat).step ⟨sh, threads⟩
      (onewayCall threads.length) =
      some ⟨{ sh with msgId := (sh.msgId + 1) % 2 ^ 64 },
        threads ++ [.call oneway (.returned .early .ok)]⟩ := by
  have hend : run ((program sampleConfig (RobinDispatcher Nat) Nat).solo threads.length)
      ({ sh with msgId := (sh.msgId + 1) % 2 ^ 64 }, .call oneway .posted) [.sendResult .ok] =
      some ({ sh with msgId := (sh.msgId + 1) % 2 ^ 64 }, .call oneway (.returned .early .ok)) :=
      rfl
  exact run_spawned rfl (run_join (run_number oneway threads.length hd hw) hend)

/-- So many calls that go one way move the counter on. -/
theorem run_onewayCalls (n : Nat) (sh : ClientImpl (RobinDispatcher Nat) Nat)
    (threads : List (Thread Nat))
    (hd : sh.dispatcher = ⟨[0], 0⟩) (hw : sh.wndSize ≤ 10) (hm : sh.msgId < 2 ^ 64) :
    run (program sampleConfig (RobinDispatcher Nat) Nat).step ⟨sh, threads⟩
      (onewayCalls threads.length n) =
      some ⟨{ sh with msgId := (sh.msgId + n) % 2 ^ 64 },
        threads ++ List.replicate n (.call oneway (.returned .early .ok))⟩ := by
  induction n generalizing sh threads with
  | zero =>
    simp only [onewayCalls, run_nil, Nat.add_zero, Nat.mod_eq_of_lt hm, List.replicate_zero,
      List.append_nil]
  | succ n ih =>
    have hrest := ih { sh with msgId := (sh.msgId + 1) % 2 ^ 64 }
      (threads ++ [.call oneway (.returned .early .ok)]) hd hw (Nat.mod_lt _ (by decide))
    rw [List.length_append, List.length_singleton] at hrest
    rw [onewayCalls, run_append, run_onewayCall hd hw, Option.bind_some, hrest]
    simp only [List.append_assoc, List.singleton_append, ← List.replicate_succ, Nat.mod_add_mod,
      Nat.add_assoc, Nat.add_comm 1 n]

theorem length_draws_onewayCalls (i n : Nat) : (draws (onewayCalls i n)).length = n := by
  induction n generalizing i with
  | zero => rfl
  | succ n ih =>
    have happ : draws (onewayCalls i (n + 1)) = i :: draws (onewayCalls (i + 1) n) :=
      List.filterMap_append
    rw [happ, List.length_cons, ih]

/-- The client once transport 0 is connected. -/
def connected : ClientImpl (RobinDispatcher Nat) Nat :=
  ⟨⟨[0], 0⟩, fun u => if u = 0 then some 0 else none, 0, 0, [.init 0], []⟩

theorem run_connectRun :
    run (program sampleConfig (RobinDispatcher Nat) Nat).step (start .init) connectRun =
      some ⟨connected, [.conn 0 .done]⟩ := rfl

/-- The group of transport 0 once the next call has registered in it. -/
def joined (sh : ClientImpl (RobinDispatcher Nat) Nat) (grp : RspChanGroup Nat) :
    RspChanGroup Nat :=
  let id := (sh.msgId + 1) % 2 ^ 64
  grp.setMap (slot id) ((grp.maps (slot id)).insert id sh.chans.length)

/-- The client once the next call waits. -/
def called (sh : ClientImpl (RobinDispatcher Nat) Nat) (grp : RspChanGroup Nat) :
    ClientImpl (RobinDispatcher Nat) Nat :=
  { sh with
    msgId := (sh.msgId + 1) % 2 ^ 64
    wndSize := (sh.wndSize + 1) % 2 ^ 64
    groups := sh.groups.set 0 (joined sh grp)
    chans := sh.chans ++ [.empty] }

theorem run_callRun (sh : ClientImpl (RobinDispatcher Nat) Nat) (threads : List (Thread Nat))
    (grp : RspChanGroup Nat) (hd : sh.dispatcher = ⟨[0], 0⟩) (hw : sh.wndSize ≤ 10)
    (hc : sh.channels 0 = some 0)
    (hg : sh.groups[0]? = some grp) (hopen : grp.closed (slot ((sh.msgId + 1) % 2 ^ 64)) = false) :
    run (program sampleConfig (RobinDispatcher Nat) Nat).step ⟨sh, threads⟩
      (callRun threads.length) =
      some ⟨called sh grp,
        threads ++ [.call twoway (.waiting ⟨0, (sh.msgId + 1) % 2 ^ 64, 0, sh.chans.length⟩)]⟩ := by
  have hfind : callNext sampleConfig twoway { sh with msgId := (sh.msgId + 1) % 2 ^ 64 }
      (.numbered 0 ((sh.msgId + 1) % 2 ^ 64)) .findGroup =
      some ({ sh with msgId := (sh.msgId + 1) % 2 ^ 64, chans := sh.chans ++ [.empty] },
        .grouped ⟨0, (sh.msgId + 1) % 2 ^ 64, 0, sh.chans.length⟩) := by
    simp only [callNext, hc]
  have hregister : callNext sampleConfig twoway
      { sh with msgId := (sh.msgId + 1) % 2 ^ 64, chans := sh.chans ++ [.empty] }
      (.grouped ⟨0, (sh.msgId + 1) % 2 ^ 64, 0, sh.chans.length⟩) .register =
      some ({ called sh grp with wndSize := sh.wndSize },
        .registered ⟨0, (sh.msgId + 1) % 2 ^ 64, 0, sh.chans.length⟩) := by
    simp only [callNext, hg, hopen, Bool.false_eq_true, if_false, ClientImpl.setGroup,
      called, joined]
  have hend : run ((program sampleConfig (RobinDispatcher Nat) Nat).solo threads.length)
      ({ sh with msgId := (sh.msgId + 1) % 2 ^ 64 },
        .call twoway (.numbered 0 ((sh.msgId + 1) % 2 ^ 64)))
      [.findGroup, .register, .send, .grow] =
      some (called sh grp,
        .call twoway (.waiting ⟨0, (sh.msgId + 1) % 2 ^ 64, 0, sh.chans.length⟩)) := by
    rw [run_cons, solo_call _ hfind, Option.bind_some, run_cons, solo_call _ hregister,
      Option.bind_some]
    rfl
  exact run_spawned rfl (run_join (run_number twoway threads.length hd hw) hend)

end Samples

end Ucorf.ClientNumbers
