import Mathlib.Algebra.GroupWithZero.Nat
import Mathlib.Data.List.Infix
import Mathlib.Tactic.Common

/-!
# Frames over a byte stream

A decoder looks at the bytes buffered so far and either waits for more, takes
one frame from the front, or gives up. A receiver drains its buffer after every
chunk and keeps the rest. A decoder need not be monotone: whether a frame is
taken may depend on the whole number of buffered bytes. The main result says
exactly when every frame of a stream has been taken after the last chunk.
-/
namespace Ucorf.Framing

variable {β X F : Type*}

inductive Outcome (X : Type*) where
  | wait : Outcome X
  | take : X → Nat → Outcome X
  | fail : X → Outcome X
  deriving DecidableEq, Repr

def Outcome.map {Y : Type*} (f : X → Y) : Outcome X → Outcome Y
  | .wait => .wait
  | .take x n => .take (f x) n
  | .fail x => .fail (f x)

structure Decoder (β X : Type*) where
  next : List β → Outcome X
  bounded : ∀ {b x n}, next b = .take x n → 0 < n ∧ n ≤ b.length

/-- Take frames until the decoder waits or fails; `none` is a failed stream. -/
def Decoder.drain (D : Decoder β X) (b : List β) : List X × Option (List β) :=
  match h : D.next b with
  | .wait => ([], some b)
  | .fail x => ([x], none)
  | .take x n =>
    have : b.length - n < b.length := by
      have := D.bounded h
      omega
    let r := D.drain (b.drop n)
    (x :: r.1, r.2)
termination_by b.length

/-- One drain for each chunk, over the kept rest followed by the chunk. -/
def Decoder.feed (D : Decoder β X) : List β → List (List β) → List X × Option (List β)
  | rest, [] => ([], some rest)
  | rest, c :: cs =>
    match D.drain (rest ++ c) with
    | (xs, none) => (xs, none)
    | (xs, some rest') => let r := D.feed rest' cs; (xs ++ r.1, r.2)

theorem Decoder.feed_cons {D : Decoder β X} {rest c rest' : List β}
    {cs : List (List β)} {xs : List X}
    (h : D.drain (rest ++ c) = (xs, some rest')) :
    D.feed rest (c :: cs) = (xs ++ (D.feed rest' cs).1, (D.feed rest' cs).2) := by
  simp only [Decoder.feed, h]

/-- One more chunk after a session that is still up. -/
theorem Decoder.feed_snoc {D : Decoder β X} {rest c rest' : List β}
    {cs : List (List β)} {xs : List X} (h : D.feed rest cs = (xs, some rest')) :
    D.feed rest (cs ++ [c]) = (xs ++ (D.drain (rest' ++ c)).1, (D.drain (rest' ++ c)).2) := by
  induction cs generalizing rest xs with
  | nil =>
    cases h
    cases hd : D.drain (rest' ++ c) with
    | mk ys o => cases o <;> simp [Decoder.feed, hd]
  | cons d cs ih =>
    cases hd : D.drain (rest ++ d) with
    | mk ys o =>
      cases o with
      | none => simp [Decoder.feed, hd] at h
      | some kept =>
        rw [Decoder.feed_cons hd] at h
        obtain ⟨rfl, hkept⟩ := Prod.mk.inj h
        rw [List.cons_append, Decoder.feed_cons hd, ih (Prod.ext rfl hkept), List.append_assoc]

/-- What later chunks bring comes after what the chunks so far brought. -/
theorem Decoder.feed_prefix (D : Decoder β X) (rest : List β) (cs ds : List (List β)) :
    (D.feed rest cs).1 <+: (D.feed rest (cs ++ ds)).1 := by
  induction cs generalizing rest with
  | nil => exact List.nil_prefix
  | cons c cs ih =>
    cases hd : D.drain (rest ++ c) with
    | mk xs kept =>
      cases kept with
      | none => simp [Decoder.feed, hd]
      | some rest' =>
        rw [List.cons_append, Decoder.feed_cons hd, Decoder.feed_cons hd]
        exact (List.prefix_append_right_inj xs).mpr (ih rest')

theorem Decoder.drain_wait {D : Decoder β X} {b : List β} (h : D.next b = .wait) :
    D.drain b = ([], some b) := by
  rw [Decoder.drain]
  split <;> simp_all

theorem Decoder.drain_fail {D : Decoder β X} {b : List β} {x : X} (h : D.next b = .fail x) :
    D.drain b = ([x], none) := by
  rw [Decoder.drain]
  split <;> simp_all

theorem Decoder.drain_take {D : Decoder β X} {b : List β} {x : X} {n : Nat}
    (h : D.next b = .take x n) :
    D.drain b = (x :: (D.drain (b.drop n)).1, (D.drain (b.drop n)).2) := by
  rw [Decoder.drain]
  split <;> simp_all

theorem Decoder.drain_eq_nil {D : Decoder β X} {b : List β} :
    (D.drain b).1 = [] ↔ D.next b = .wait := by
  cases hn : D.next b with
  | wait => simp [Decoder.drain_wait hn]
  | fail x => simp [Decoder.drain_fail hn]
  | take x n => simp [Decoder.drain_take hn]

/-- A decoder that names the items of another one takes the same frames. -/
theorem drain_map {Y : Type*} {D : Decoder β X} {E : Decoder β Y} {f : X → Y}
    (h : ∀ b, E.next b = (D.next b).map f) (b : List β) :
    E.drain b = ((D.drain b).1.map f, (D.drain b).2) := by
  induction hb : b.length using Nat.strongRecOn generalizing b with
  | _ n ih =>
    have hE := h b
    cases hn : D.next b with
    | wait =>
      rw [hn] at hE
      rw [Decoder.drain_wait hn, Decoder.drain_wait hE]
      rfl
    | fail x =>
      rw [hn] at hE
      rw [Decoder.drain_fail hn, Decoder.drain_fail hE]
      rfl
    | take x m =>
      rw [hn] at hE
      obtain ⟨hm, hle⟩ := D.bounded hn
      have hrec := ih (b.length - m) (by omega) (b.drop m) (by simp)
      rw [Decoder.drain_take hn, Decoder.drain_take hE, hrec]
      rfl

theorem feed_map {Y : Type*} {D : Decoder β X} {E : Decoder β Y} {f : X → Y}
    (h : ∀ b, E.next b = (D.next b).map f) (rest : List β) (cs : List (List β)) :
    E.feed rest cs = ((D.feed rest cs).1.map f, (D.feed rest cs).2) := by
  induction cs generalizing rest with
  | nil => rfl
  | cons c cs ih =>
    rw [Decoder.feed, Decoder.feed, drain_map h]
    cases D.drain (rest ++ c) with
    | mk xs o =>
      cases o with
      | none => rfl
      | some kept => simp only [ih, List.map_append]

/-- What a drain keeps is the tail that it has not consumed. -/
theorem drain_suffix {D : Decoder β X} {b rest : List β} {xs : List X}
    (h : D.drain b = (xs, some rest)) : b.drop (b.length - rest.length) = rest := by
  induction hb : b.length using Nat.strongRecOn generalizing b xs with
  | _ n ih =>
    cases hn : D.next b with
    | wait =>
      rw [Decoder.drain_wait hn] at h
      cases h
      simp [← hb]
    | fail x => rw [Decoder.drain_fail hn] at h; cases h
    | take x m =>
      obtain ⟨hm, hle⟩ := D.bounded hn
      rw [Decoder.drain_take hn] at h
      obtain ⟨-, hr⟩ := Prod.mk.inj h
      have hrec := ih (b.length - m) (by omega) (b := b.drop m) (Prod.ext rfl hr) (by simp)
      have hlen : rest.length ≤ b.length - m := by
        have := congrArg List.length hrec
        simp only [List.length_drop] at this
        omega
      rw [List.drop_drop] at hrec
      rwa [show m + (b.length - m - rest.length) = n - rest.length by omega] at hrec

/-- A loop over `data` with a counter of consumed bytes, each of whose rounds does what
the decoder says, drains the decoder from any count. -/
theorem loop_eq_drain {D : Decoder β X} {data : List β} (loop : Nat → List X × Option Nat)
    (hwait : ∀ c ≤ data.length, D.next (data.drop c) = .wait → loop c = ([], some c))
    (hfail : ∀ c ≤ data.length, ∀ x, D.next (data.drop c) = .fail x → loop c = ([x], none))
    (htake : ∀ c ≤ data.length, ∀ x n, D.next (data.drop c) = .take x n →
      loop c = (x :: (loop (c + n)).1, (loop (c + n)).2))
    (consume : Nat) (hle : consume ≤ data.length) :
    loop consume = ((D.drain (data.drop consume)).1,
      (D.drain (data.drop consume)).2.map fun rest => data.length - rest.length) := by
  induction h : data.length - consume using Nat.strongRecOn generalizing consume with
  | _ n ih =>
    cases hn : D.next (data.drop consume) with
    | wait =>
      rw [hwait consume hle hn, Decoder.drain_wait hn]
      simp only [Option.map_some, List.length_drop]
      rw [show data.length - (data.length - consume) = consume by omega]
    | fail x =>
      rw [hfail consume hle x hn, Decoder.drain_fail hn]
      rfl
    | take x m =>
      obtain ⟨hm, hle'⟩ := D.bounded hn
      rw [List.length_drop] at hle'
      rw [htake consume hle x m hn, Decoder.drain_take hn, List.drop_drop]
      have hrec := ih (data.length - (consume + m)) (by omega) (consume + m) (by omega) rfl
      simp only [hrec]

/-- What holds of every item that the decoder takes or fails on holds of every
item of a session. -/
theorem feed_forall {D : Decoder β X} {P : X → Prop} (htake : ∀ {b x n}, D.next b = .take x n → P x)
    (hfail : ∀ {b x}, D.next b = .fail x → P x) (rest : List β) (cs : List (List β)) :
    ∀ x ∈ (D.feed rest cs).1, P x := by
  have hdrain : ∀ n (b : List β), b.length = n → ∀ x ∈ (D.drain b).1, P x := by
    intro n
    induction n using Nat.strongRecOn with
    | _ n ih =>
      intro b hb
      cases hn : D.next b with
      | wait => simp [Decoder.drain_wait hn]
      | fail x => simpa [Decoder.drain_fail hn] using hfail hn
      | take x m =>
        obtain ⟨hm, hle⟩ := D.bounded hn
        intro y hy
        rw [Decoder.drain_take hn, List.mem_cons] at hy
        rcases hy with rfl | hy
        · exact htake hn
        · exact ih (n - m) (by omega) (b.drop m) (by simp [hb]) y hy
  induction cs generalizing rest with
  | nil => simp [Decoder.feed]
  | cons c cs ih =>
    rw [Decoder.feed]
    have hd := hdrain _ (rest ++ c) rfl
    cases h : D.drain (rest ++ c) with
    | mk xs o =>
      rw [h] at hd
      cases o with
      | none => exact hd
      | some rest' =>
        intro x hx
        rcases List.mem_append.mp hx with hx | hx
        · exact hd x hx
        · exact ih rest' x hx

section Schedule

variable (size : F → Nat) (ready : F → Nat → Prop)

def total (fs : List F) : Nat := (fs.map size).sum

@[simp] theorem total_nil : total size ([] : List F) = 0 := rfl
@[simp] theorem total_cons (f : F) (fs : List F) :
    total size (f :: fs) = size f + total size fs := by
  simp [total]

theorem total_append (fs gs : List F) : total size (fs ++ gs) = total size fs + total size gs := by
  simp [total]

/-- The frames can be taken one after another from `n` buffered bytes. -/
def Drains : List F → Nat → Prop
  | [], _ => True
  | f :: fs, n => ready f n ∧ Drains fs (n - size f)

/-- One group of frames for each chunk: when a chunk of `k` bytes arrives at `n`
buffered bytes, its group can be taken from the `n + k` bytes. -/
def Timely : List (List F) → List Nat → Nat → Prop
  | [], [], _ => True
  | g :: gs, k :: ks, n => Drains size ready g (n + k) ∧ Timely gs ks (n + k - total size g)
  | _, _, _ => False

/-- A schedule stays one when its first frame is taken ahead of time. -/
theorem timely_advance (size : F → Nat) {ready : F → Nat → Prop} {f : F} {fs : List F} :
    ∀ {gs : List (List F)} {ks : List Nat} {n : Nat}, gs.flatten = f :: fs → size f ≤ n →
      Timely size ready gs ks n → ∃ gs', gs'.flatten = fs ∧ Timely size ready gs' ks (n - size f)
  | [], _, _, h, _, _ => by simp at h
  | _ :: _, [], _, _, _, ht => ht.elim
  | [] :: gs, k :: ks, n, h, hn, ht => by
    obtain ⟨gs', hf, ht'⟩ := timely_advance size (n := n + k) (by simpa using h) (by omega) ht.2
    refine ⟨[] :: gs', by simpa using hf, trivial, ?_⟩
    simpa [Nat.sub_add_comm hn] using ht'
  | (f' :: g) :: gs, k :: ks, n, h, hn, ht => by
    obtain ⟨hf, hg⟩ : f' = f ∧ g ++ gs.flatten = fs := by simpa using h
    subst f'
    refine ⟨g :: gs, hg, ?_, ?_⟩
    · simpa [Nat.sub_add_comm hn] using ht.1.2
    · have he : n + k - total size (f :: g) = n - size f + k - total size g := by
        rw [total_cons]; omega
      rw [← he]
      exact ht.2

end Schedule

/-- What is known of a decoder on streams of encoded frames. `sound` speaks of
every frame, `complete` only of those that some number of bytes makes ready. -/
structure Codec (D : Decoder β X) (encode : F → List β) (item : F → X) (ready : F → Nat → Prop) :
    Prop where
  full : ∀ {f n}, ready f n → (encode f).length ≤ n
  empty : D.next [] = .wait
  sound : ∀ {f : F} {b t u : List β} {m : Nat}, b ++ t = encode f ++ u →
    D.next b = .take (item f) m →
    ready f b.length ∧ m = (encode f).length
  complete : ∀ {f : F} {b t u : List β} {n : Nat}, b ++ t = encode f ++ u → ready f n →
    (ready f b.length → D.next b = .take (item f) (encode f).length) ∧
      (¬ ready f b.length → D.next b = .wait)

/-- A decoder that takes every frame as soon as its last byte is there. -/
theorem prompt_codec {D : Decoder β X} {encode : F → List β} {item : F → X}
    (hempty : D.next [] = .wait) (hnext : ∀ {f : F} {b t u : List β}, b ++ t = encode f ++ u →
      D.next b = if (encode f).length ≤ b.length then .take (item f) (encode f).length else .wait) :
    Codec D encode item fun f n => (encode f).length ≤ n where
  full := id
  empty := hempty
  sound := by
    intro f b t u m hb hn
    rw [hnext hb] at hn
    split at hn
    · rename_i hle
      exact ⟨hle, (Outcome.take.inj hn).2.symm⟩
    · cases hn
  complete := by
    intro f b t u n hb _
    rw [hnext hb]
    constructor
    · exact fun hle => if_pos hle
    · exact fun hle => if_neg hle

section Stream

variable {D : Decoder β X} {encode : F → List β} {item : F → X} {ready : F → Nat → Prop}

def stream (encode : F → List β) (fs : List F) : List β := fs.flatMap encode

@[simp] theorem stream_nil (encode : F → List β) : stream encode [] = [] := rfl
@[simp] theorem stream_cons (encode : F → List β) (f : F) (fs : List F) :
    stream encode (f :: fs) = encode f ++ stream encode fs := by simp [stream]

/-- Dropping a taken frame leaves a buffer of the remaining stream. -/
theorem drop_stream {f : F} {fs : List F} {b t : List β} (hb : b ++ t = stream encode (f :: fs))
    (hn : (encode f).length ≤ b.length) : b.drop (encode f).length ++ t = stream encode fs := by
  have h := congrArg (List.drop (encode f).length) hb
  rwa [List.drop_append_of_le_length hn, stream_cons, List.drop_left] at h

/-- If a drain took only frames of the stream, they were ready when taken. -/
theorem drain_sound (hc : Codec D encode item ready) {b t rest : List β}
    {xs ys : List X} {fs : List F}
    (hb : b ++ t = stream encode fs) (hd : D.drain b = (xs, some rest))
    (hx : xs ++ ys = fs.map item) :
    ∃ g post, fs = g ++ post ∧ ys = post.map item ∧
    Drains (fun f => (encode f).length) ready g b.length ∧
      rest ++ t = stream encode post ∧
      rest.length = b.length - total (fun f => (encode f).length) g := by
  induction fs generalizing b xs with
  | nil =>
    have hb0 : b = [] := by
      have := List.append_eq_nil_iff.mp hb
      exact this.1
    subst hb0
    rw [Decoder.drain_wait hc.empty] at hd
    cases hd
    exact ⟨[], [], rfl, by simpa using hx, trivial, by simpa using hb, by simp⟩
  | cons f fs ih =>
    cases hn : D.next b with
    | fail x =>
      rw [Decoder.drain_fail hn] at hd
      cases hd
    | wait =>
      rw [Decoder.drain_wait hn] at hd
      cases hd
      exact ⟨[], f :: fs, rfl, by simpa using hx, trivial, hb, by simp⟩
    | take x m =>
      rw [Decoder.drain_take hn] at hd
      obtain ⟨hxs, hrest⟩ := Prod.mk.inj hd
      subst hxs
      obtain ⟨hxf, hxs'⟩ : x = item f ∧ (D.drain (b.drop m)).1 ++ ys = fs.map item := by
        simpa using hx
      subst hxf
      obtain ⟨hr, hm⟩ := hc.sound (by simpa using hb) hn
      subst hm
      have hb' := drop_stream hb (hc.full hr)
      obtain ⟨g, post, hfs, hys, hg, hrt, hlen⟩ := ih hb' (Prod.ext rfl hrest) hxs'
      refine ⟨f :: g, post, by simp [hfs], hys, ⟨hr, by simpa using hg⟩, hrt, ?_⟩
      simp only [hlen, List.length_drop, total_cons]
      omega

/-- A drain runs at least as far ahead as any schedule asks. -/
theorem drain_timely (hc : Codec D encode item ready) {b t : List β} {fs g : List F}
    {gs : List (List F)} {ks : List Nat} (hfs : fs = g ++ gs.flatten)
    (hb : b ++ t = stream encode fs) (hall : ∀ f ∈ fs, ∃ n, ready f n)
    (hg : Drains (fun f => (encode f).length) ready g b.length)
    (ht : Timely (fun f => (encode f).length) ready gs ks
      (b.length - total (fun f => (encode f).length) g)) :
    ∃ xs rest post gs', D.drain b = (xs, some rest) ∧ xs ++ post.map item = fs.map item ∧
      rest ++ t = stream encode post ∧ gs'.flatten = post ∧
      Timely (fun f => (encode f).length) ready gs' ks rest.length := by
  induction fs generalizing b g gs with
  | nil =>
    obtain ⟨hg0, hgs0⟩ := List.append_eq_nil_iff.mp hfs.symm
    subst hg0
    have hb0 : b = [] := (List.append_eq_nil_iff.mp hb).1
    subst hb0
    exact ⟨[], [], [], gs, Decoder.drain_wait hc.empty, rfl, hb, hgs0, ht⟩
  | cons f fs ih =>
    obtain ⟨n₀, hn₀⟩ := hall f (by simp)
    have hcomp := hc.complete (b := b) (t := t) (by simpa using hb) hn₀
    have hall' : ∀ f' ∈ fs, ∃ n, ready f' n := fun f' hf' => hall f' (by simp [hf'])
    by_cases hr : ready f b.length
    · -- the frame is taken now, whichever group the schedule has it in
      have hlen := hc.full hr
      have hb' := drop_stream hb hlen
      have hnext : ∃ g' gs', fs = g' ++ gs'.flatten ∧
          Drains (fun f => (encode f).length) ready g' (b.drop (encode f).length).length ∧
          Timely (fun f => (encode f).length) ready gs' ks
            ((b.drop (encode f).length).length - total (fun f => (encode f).length) g') := by
        cases g with
        | nil =>
          obtain ⟨gs', hf, ht'⟩ := timely_advance (fun f => (encode f).length)
            (by simpa using hfs.symm) hlen (by simpa using ht)
          exact ⟨[], gs', by simp [hf], trivial, by simpa using ht'⟩
        | cons f' g =>
          obtain ⟨hff, hfs'⟩ : f = f' ∧ fs = g ++ gs.flatten := by simpa using hfs
          subst hff
          refine ⟨g, gs, hfs', by simpa using hg.2, ?_⟩
          simpa [Nat.sub_sub] using ht
      obtain ⟨g', gs', hfs', hg', ht'⟩ := hnext
      obtain ⟨xs, rest, post, gs'', hd, hx, hrest, hflat, htime⟩ := ih hfs' hb' hall' hg' ht'
      refine ⟨item f :: xs, rest, post, gs'', ?_, by simp [hx], hrest, hflat, htime⟩
      rw [Decoder.drain_take (hcomp.1 hr), hd]
    · -- the decoder waits, so the group of this chunk is empty
      have hg0 : g = [] := by
        cases g with
        | nil => rfl
        | cons f' g =>
          obtain ⟨hff, -⟩ : f = f' ∧ fs = g ++ gs.flatten := by simpa using hfs
          subst hff
          exact absurd hg.1 hr
      subst hg0
      exact ⟨[], b, f :: fs, gs, Decoder.drain_wait (hcomp.2 hr), rfl, hb, by simpa using hfs.symm,
        by simpa using ht⟩

theorem drains_ready {size : F → Nat} {g : List F} {n : Nat} (hd : Drains size ready g n) :
    ∀ f ∈ g, ∃ m, ready f m := by
  induction g generalizing n with
  | nil => simp
  | cons f' g ih =>
    intro f hf
    rcases List.mem_cons.mp hf with he | he
    · exact ⟨n, he ▸ hd.1⟩
    · exact ih hd.2 f he

theorem timely_ready {size : F → Nat} {gs : List (List F)} {ks : List Nat} {n : Nat}
    (ht : Timely size ready gs ks n) : ∀ f ∈ gs.flatten, ∃ m, ready f m := by
  induction gs generalizing ks n with
  | nil => simp
  | cons g gs ih =>
    cases ks with
    | nil => exact ht.elim
    | cons k ks =>
      intro f hf
      rw [List.flatten_cons, List.mem_append] at hf
      rcases hf with hg | hgs
      · exact drains_ready ht.1 f hg
      · exact ih ht.2 f hgs

theorem feed_sound (hc : Codec D encode item ready) {rest : List β}
    {cs : List (List β)} {fs : List F}
    (hb : rest ++ cs.flatten = stream encode fs) (hf : D.feed rest cs = (fs.map item, some [])) :
    ∃ gs, gs.flatten = fs ∧
      Timely (fun f => (encode f).length) ready gs (cs.map List.length) rest.length := by
  induction cs generalizing rest fs with
  | nil =>
    obtain ⟨hx, -⟩ : fs = [] ∧ rest = [] := by simpa [Decoder.feed, eq_comm] using hf
    subst hx
    exact ⟨[], rfl, trivial⟩
  | cons c cs ih =>
    rw [Decoder.feed] at hf
    cases hd : D.drain (rest ++ c) with
    | mk xs o =>
      cases o with
      | none => simp [hd] at hf
      | some rest' =>
        simp only [hd, Prod.mk.injEq] at hf
        obtain ⟨g, post, hfs, hys, hg, hrt, hlen⟩ :=
          drain_sound hc (b := rest ++ c) (t := cs.flatten) (by simpa using hb) hd hf.1
        obtain ⟨gs, hflat, ht⟩ := ih hrt (Prod.ext hys hf.2)
        refine ⟨g :: gs, by simp [hfs, hflat], by simpa using hg, ?_⟩
        simpa [hlen] using ht

theorem feed_complete (hc : Codec D encode item ready) {rest : List β}
    {cs : List (List β)} {fs : List F}
    {gs : List (List F)} (hb : rest ++ cs.flatten = stream encode fs) (hgs : gs.flatten = fs)
    (ht : Timely (fun f => (encode f).length) ready gs (cs.map List.length) rest.length) :
    D.feed rest cs = (fs.map item, some []) := by
  induction cs generalizing rest fs gs with
  | nil =>
    cases gs with
    | cons g gs => exact ht.elim
    | nil =>
      subst hgs
      have hrest : rest = [] := by simpa using hb
      simp [Decoder.feed, hrest]
  | cons c cs ih =>
    cases gs with
    | nil => exact ht.elim
    | cons g gs =>
      have hall : ∀ f ∈ fs, ∃ n, ready f n := by
        intro f hf
        exact timely_ready ht f (hgs ▸ hf)
      obtain ⟨xs, rest', post, gs', hd, hx, hrt, hflat, ht'⟩ :=
        drain_timely hc (b := rest ++ c) (t := cs.flatten) (g := g) (by simpa using hgs.symm)
          (by simpa using hb) hall (by simpa using ht.1) (by simpa using ht.2)
      have hrec := ih hrt hflat ht'
      simp [Decoder.feed, hd, hrec, hx]

/-- The receiver ends with every frame taken once, in order, and nothing kept,
exactly when the frames can be grouped so that each is ready at its chunk. -/
theorem feed_iff (hc : Codec D encode item ready) {cs : List (List β)} {fs : List F}
    (hb : cs.flatten = stream encode fs) :
    D.feed [] cs = (fs.map item, some []) ↔ ∃ gs, gs.flatten = fs ∧
      Timely (fun f => (encode f).length) ready gs (cs.map List.length) 0 := by
  constructor
  · intro hf
    exact feed_sound hc hb hf
  · rintro ⟨gs, hgs, ht⟩
    exact feed_complete hc hb hgs ht

end Stream

section Arrival

variable {D : Decoder β X} {encode : F → List β} {item : F → X}

/-- The frames whose last byte is among the first `n` bytes of the stream. -/
def arrived (size : F → Nat) : List F → Nat → List F
  | [], _ => []
  | f :: fs, n => if size f ≤ n then f :: arrived size fs (n - size f) else []

/-- What has arrived is a prefix, and what arrives later is counted from its end. -/
theorem arrived_split (size : F → Nat) (fs : List F) (n : Nat) :
    ∃ post, fs = arrived size fs n ++ post ∧ total size (arrived size fs n) ≤ n ∧
      arrived size post (n - total size (arrived size fs n)) = [] ∧
    ∀ m, arrived size fs (n + m) = arrived size fs n ++
      arrived size post (n - total size (arrived size fs n) + m) := by
  induction fs generalizing n with
  | nil => exact ⟨[], rfl, by simp [arrived], rfl, fun m => rfl⟩
  | cons f fs ih =>
    by_cases hf : size f ≤ n
    · obtain ⟨post, hfs, hle, hnone, hmore⟩ := ih (n - size f)
      have hcons : arrived size (f :: fs) n = f :: arrived size fs (n - size f) := if_pos hf
      refine ⟨post, by rw [hcons, List.cons_append, ← hfs], ?_, ?_, ?_⟩
      · rw [hcons, total_cons]
        omega
      · rw [hcons, total_cons, ← Nat.sub_sub]
        exact hnone
      · intro m
        have hcons' : arrived size (f :: fs) (n + m) = f :: arrived size fs (n + m - size f) :=
          if_pos (by omega)
        rw [hcons', hcons, total_cons, show n + m - size f = n - size f + m by omega, hmore,
          Nat.sub_sub, List.cons_append]
    · have hnone : arrived size (f :: fs) n = [] := if_neg hf
      refine ⟨f :: fs, by rw [hnone, List.nil_append], by simp [hnone], ?_, ?_⟩
      · rw [hnone, total_nil, Nat.sub_zero, hnone]
      · intro m
        simp [hnone]

theorem arrived_total (size : F → Nat) (fs : List F) : arrived size fs (total size fs) = fs := by
  induction fs with
  | nil => rfl
  | cons f fs ih =>
      rw [total_cons, arrived, if_pos (Nat.le_add_right _ _), Nat.add_sub_cancel_left, ih]

theorem length_stream (encode : F → List β) (fs : List F) :
    (stream encode fs).length = total (fun f => (encode f).length) fs := by
  induction fs with
  | nil => rfl
  | cons f fs ih => rw [stream_cons, List.length_append, ih, total_cons]

theorem drop_prefix {b t : List β} {fs post : List F} (hb : b ++ t = stream encode (fs ++ post))
    (hle : total (fun f => (encode f).length) fs ≤ b.length) :
    b.drop (total (fun f => (encode f).length) fs) ++ t = stream encode post := by
  have happ : stream encode (fs ++ post) = stream encode fs ++ stream encode post :=
    List.flatMap_append
  have h := congrArg (List.drop (total (fun f => (encode f).length) fs)) hb
  rw [List.drop_append_of_le_length hle, happ, List.drop_left' (length_stream encode fs)] at h
  exact h

/-- A decoder that takes every frame as soon as it is complete drains all that has arrived. -/
theorem drain_arrived (hc : Codec D encode item fun f n => (encode f).length ≤ n)
    {b t : List β} {fs : List F}
    (hb : b ++ t = stream encode fs) :
    D.drain b = ((arrived (fun f => (encode f).length) fs b.length).map item,
      some (b.drop (total (fun f => (encode f).length)
        (arrived (fun f => (encode f).length) fs b.length)))) := by
  induction fs generalizing b with
  | nil =>
    obtain rfl : b = [] := (List.append_eq_nil_iff.mp hb).1
    rw [Decoder.drain_wait hc.empty]
    rfl
  | cons f fs ih =>
    have hcomp := hc.complete (b := b) (t := t) (by simpa using hb) (Nat.le_refl (encode f).length)
    by_cases hf : (encode f).length ≤ b.length
    · have hcons : arrived (fun f => (encode f).length) (f :: fs) b.length =
          f :: arrived (fun f => (encode f).length) fs (b.length - (encode f).length) := if_pos hf
      rw [Decoder.drain_take (hcomp.1 hf), ih (drop_stream hb hf), hcons, List.length_drop,
        List.drop_drop, total_cons, List.map_cons]
    · have hnone : arrived (fun f => (encode f).length) (f :: fs) b.length = [] := if_neg hf
      rw [Decoder.drain_wait (hcomp.2 hf), hnone]
      rfl

/-- So wherever the stream is cut and wherever it stops, the receiver has taken the
frames that have arrived and keeps the bytes after them. -/
theorem feed_arrived (hc : Codec D encode item fun f n => (encode f).length ≤ n) (rest : List β)
    (cs : List (List β)) {t : List β} {fs : List F}
    (hb : rest ++ cs.flatten ++ t = stream encode fs)
    (hrest : arrived (fun f => (encode f).length) fs rest.length = []) :
    D.feed rest cs =
      ((arrived (fun f => (encode f).length) fs (rest ++ cs.flatten).length).map item,
        some ((rest ++ cs.flatten).drop
          (total (fun f => (encode f).length)
            (arrived (fun f => (encode f).length) fs (rest ++ cs.flatten).length)))) := by
  induction cs generalizing rest fs with
  | nil =>
    rw [List.flatten_nil, List.append_nil, hrest]
    rfl
  | cons c cs ih =>
    have hb' : (rest ++ c) ++ (cs.flatten ++ t) = stream encode fs := by simpa using hb
    obtain ⟨post, hfs, hle, hnone, hmore⟩ :=
      arrived_split (fun f => (encode f).length) fs (rest ++ c).length
    have hdrain := drain_arrived hc hb'
    have hlater := hmore cs.flatten.length
    generalize arrived (fun f => (encode f).length) fs (rest ++ c).length = taken at *
    have hdrop := drop_prefix (hfs ▸ hb') hle
    rw [← List.append_assoc] at hdrop
    rw [← List.length_drop] at hnone
    have hall : (rest ++ c).length + cs.flatten.length = (rest ++ (c :: cs).flatten).length := by
      simp [Nat.add_assoc]
    rw [hall] at hlater
    have hcat : rest ++ c ++ cs.flatten = rest ++ (c :: cs).flatten := by simp
    rw [Decoder.feed_cons hdrain, ih _ hdrop hnone, hlater, total_append, List.length_append,
      List.length_drop, ← List.drop_append_of_le_length hle, List.drop_drop, hcat, List.map_append]

/-- Nothing arrives before the first byte where no frame is empty. -/
theorem arrived_zero {size : F → Nat} (hpos : ∀ f, 0 < size f) (fs : List F) :
    arrived size fs 0 = [] := by
  cases fs with
  | nil => rfl
  | cons f fs =>
    have hf : ¬ size f ≤ 0 := Nat.not_le.mpr (hpos f)
    exact if_neg hf

/-- A stream that has come to its end has been taken whole. -/
theorem feed_whole (hc : Codec D encode item fun f n => (encode f).length ≤ n)
    (hpos : ∀ f, 0 < (encode f).length) {cs : List (List β)} {fs : List F}
    (hb : cs.flatten = stream encode fs) : D.feed [] cs = (fs.map item, some []) := by
  have hfeed := feed_arrived hc [] cs (t := []) (by simpa using hb) (arrived_zero hpos fs)
  have hlength := length_stream encode fs
  rwa [List.nil_append, hb, hlength, arrived_total, ← hlength, List.drop_length] at hfeed

end Arrival

end Ucorf.Framing
