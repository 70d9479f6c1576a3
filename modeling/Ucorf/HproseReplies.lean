import Ucorf.HproseTransparency

/-!
# Replies of the hprose service

Whatever bytes a request has, the reply is a whole message: a tag, one value and `z`, which
the reader of the value stops in front of. The function list has the registered names, and
an error or a list has run nothing.
-/
namespace Ucorf.HproseReplies

open Ucorf.Message
open Ucorf.Decimal
open Ucorf.HproseProtocol
open Ucorf.HproseRoundTrip
open Ucorf.HproseService
open Ucorf.HproseTransparency

variable {σ α : Type}

/-- `RegisterFunction` for each in order. -/
def registerAll (regs : List (Bytes × Callee σ)) : Functions σ :=
  regs.foldl (fun functions r => (registerFunction functions r.1 r.2).2) ∅

/-- The tag, and a value that is read up to the closing `z`. -/
def Carries (tag : UInt8) (read : Buffer → Reading α) (v : α) (body : Bytes) : Prop :=
  ∃ code, body = tag :: (code ++ [tagEnd]) ∧ read ⟨body, 1⟩ = .ok (true, v, ⟨body, code.length + 1⟩)

/-- The name that `CallMethod` reads off the request, and what it leaves for the arguments. -/
def Named (requestData method : Bytes) (reader : Buffer) : Prop :=
  readString [] true ⟨requestData, 1⟩ = .ok (true, method, reader)

/-- The entry that `Call` finds for the method. -/
def Found (functions : Functions σ) (method entry : Bytes) (callee : Callee σ) : Prop :=
  functions[entry]? = some callee ∧
  (entry = method ∨ (entry = anyMethod ∧ functions[method]? = none))

/-- The function that `Call` finds for the method, with the arguments that it reads. -/
structure Chosen (functions : Functions σ) (requestData entry : Bytes) (callee : Callee σ)
    (args : Vals callee.args) : Prop where
  registered : functions[entry]? = some callee
  read : ∃ method reader reader', Named requestData method reader ∧
    readArgs callee.args reader = .ok (some args, reader') ∧ Found functions method entry callee

/-- The name of the function cannot be read, or one of its arguments. -/
inductive Unreadable (functions : Functions σ) (requestData : Bytes) : Prop where
  | name {method : Bytes} {reader : Buffer}
      (hname : readString [] true ⟨requestData, 1⟩ = .ok (false, method, reader)) :
      Unreadable functions requestData
  | argument {method entry : Bytes} {reader reader' : Buffer} {callee : Callee σ}
      (hname : Named requestData method reader) (hfound : Found functions method entry callee)
      (hargs : readArgs callee.args reader = .ok (none, reader')) : Unreadable functions requestData

/-- An error carries its text. -/
def Says (text body : Bytes) : Prop := Carries tagError (fun b => readString [] false b) text body

/-- What an answer is, by what the request holds. -/
inductive Reply (functions : Functions σ) (requestData : Bytes) (st : σ) : Answer σ → Prop where
  | names {body : Bytes} (htag : requestData.head? = some tagEnd)
      (hbody : Carries tagFunctions (readVector [] (fun target b => readString target false b) [])
        functions.keys body) : Reply functions requestData st ⟨body, st, []⟩
  | result {body entry : Bytes} {callee : Callee σ} {args : Vals callee.args}
      (htag : requestData.head? = some tagCall)
      (hchosen : Chosen functions requestData entry callee args)
      (hbody : Carries tagResult (callee.result.read callee.result.default)
        (callee.fn args st).1 body) :
      Reply functions requestData st ⟨body, (callee.fn args st).2, [⟨entry, callee.args, args⟩]⟩
  | unread {body : Bytes} (htag : requestData.head? = some tagCall)
      (hbad : Unreadable functions requestData)
      (hbody : Says (ascii "Error Args") body) : Reply functions requestData st ⟨body, st, []⟩
  | missing {body method : Bytes} {reader : Buffer} (htag : requestData.head? = some tagCall)
      (hname : Named requestData method reader) (hmethod : functions[method]? = none)
      (hany : functions[anyMethod]? = none) (hbody : Says (ascii "No Callee " ++ method) body) :
      Reply functions requestData st ⟨body, st, []⟩
  | unsupported {body : Bytes} (hend : requestData.head? ≠ some tagEnd)
      (hcall : requestData.head? ≠ some tagCall)
      (hbody : Says (ascii "No support protocol tag.") body) :
      Reply functions requestData st ⟨body, st, []⟩

section Registering

variable {functions : Functions σ} {regs : List (Bytes × Callee σ)}

theorem getElem?_registerFunction (functions : Functions σ) (method : Bytes)
    (callee : Callee σ) (name : Bytes) : (registerFunction functions method callee).2[name]? =
      (functions[name]?).or (if method = name then some callee else none) := by
  unfold registerFunction
  split
  · rename_i hthere
    split
    · subst method
      obtain ⟨old, hold⟩ := Option.isSome_iff_exists.mp (Std.ExtTreeMap.isSome_getElem?_iff_mem.mpr
        (Std.ExtTreeMap.contains_iff_mem.mp hthere))
      simp [hold]
    · simp
  · rename_i hnew
    rw [Std.ExtTreeMap.getElem?_insert]
    simp only [Std.LawfulEqCmp.compare_eq_iff_eq]
    split
    · subst method
      have hnone : functions[name]? = none :=
        Std.ExtTreeMap.getElem?_eq_none fun hmem => hnew (Std.ExtTreeMap.contains_iff_mem.mpr hmem)
      simp [hnone]
    · simp

theorem getElem?_foldl (name : Bytes) :
    (regs.foldl (fun functions r => (registerFunction functions r.1 r.2).2) functions)[name]? =
      (functions[name]?).or ((regs.find? fun r => r.1 == name).map Prod.snd) := by
  induction regs generalizing functions with
  | nil => simp
  | cons r regs ih =>
    rw [List.foldl_cons, ih, getElem?_registerFunction, List.find?_cons, Option.or_assoc]
    by_cases hname : r.1 = name
    · simp [hname]
    · simp [hname, beq_eq_false_iff_ne.mpr hname]

/-- The first registration of a name counts. -/
theorem getElem?_registerAll (regs : List (Bytes × Callee σ)) (name : Bytes) :
    (registerAll regs)[name]? = (regs.find? fun r => r.1 == name).map Prod.snd := by
  rw [registerAll, getElem?_foldl]
  simp

theorem mem_of_registered {name : Bytes} {callee : Callee σ}
    (h : (registerAll regs)[name]? = some callee) : (name, callee) ∈ regs := by
  rw [getElem?_registerAll, Option.map_eq_some_iff] at h
  obtain ⟨r, hr, rfl⟩ := h
  obtain rfl : r.1 = name := by simpa using List.find?_some hr
  exact List.mem_of_find?_eq_some hr

theorem keys_registerAll (regs : List (Bytes × Callee σ)) :
    (∀ name ∈ (registerAll regs).keys, name ∈ regs.map Prod.fst) ∧
    (registerAll regs).keys.length ≤ regs.length := by
  have hmem : ∀ name ∈ (registerAll regs).keys, name ∈ regs.map Prod.fst := by
    intro name hname
    obtain ⟨callee, hcallee⟩ := Option.isSome_iff_exists.mp
      (Std.ExtTreeMap.isSome_getElem?_iff_mem.mpr (Std.ExtTreeMap.mem_keys.mp hname))
    exact List.mem_map_of_mem (f := Prod.fst) (mem_of_registered hcallee)
  refine ⟨hmem, ?_⟩
  have hnodup : (registerAll regs).keys.Nodup :=
    Std.ExtTreeMap.distinct_keys.imp fun hne heq =>
    hne (by rw [heq]; exact Std.ReflCmp.compare_self)
  have hle := hnodup.length_le_of_subset hmem
  rwa [List.length_map] at hle

end Registering

section Bodies

theorem carries_of_decodes {read : α → Buffer → Reading α} {code : Bytes}
    {v : α} (tag : UInt8) (target : α) (h : Decodes read code v) :
    Carries tag (read target) v (tag :: (code ++ [tagEnd])) := by
  refine ⟨code, rfl, ?_⟩
  have hrest : Buffer.rest ⟨tag :: (code ++ [tagEnd]), 1⟩ = code ++ [tagEnd] := rfl
  rw [h target _ _ hrest, Buffer.skip, Nat.add_comm]

theorem getFunctionList_eq (functions : Functions σ) : getFunctionList functions =
    tagFunctions :: (vectorCode (fun name => stringCode name false)
      functions.keys ++ [tagEnd]) := by
  unfold getFunctionList
  dsimp only
  rw [writeVector_eq fun name b => writeString_eq name false b]
  simp [Buffer.write, Buffer.writeBytes, Buffer.empty]

theorem errorBody_eq (text : Bytes) :
    errorBody text = tagError :: (stringCode text false ++ [tagEnd]) := by
  unfold errorBody
  rw [writeString_eq]
  simp [Buffer.write, Buffer.writeBytes, Buffer.empty]

/-- The constant text is what the writer makes of it. -/
theorem errorArguments_eq :
    errorArguments = tagError :: (stringCode (ascii "Error Args") true ++ [tagEnd]) := by
  decide

theorem says_error {text : Bytes} (hlen : text.length < 2 ^ 31) : Says text (errorBody text) := by
  rw [errorBody_eq]
  exact carries_of_decodes tagError [] (string_decodes false hlen (stringLength_bytes hlen))

theorem says_errorArguments : Says (ascii "Error Args") errorArguments := by
  rw [errorArguments_eq]
  exact carries_of_decodes tagError [] (name_decodes (by decide +kernel) (by decide +kernel) false)

theorem readUntil_rest (c : UInt8) (b : Buffer) :
    (b.readUntil c).2.rest.length ≤ b.rest.length := by
  unfold Buffer.readUntil
  split
  · exact Nat.le_refl _
  · rw [Buffer.rest_skip, List.length_drop]
    omega

theorem readN_length (n : Nat) (b : Buffer) : (b.readN n).1.length ≤ b.rest.length := by
  unfold Buffer.readN
  split
  · rw [List.length_take]
    omega
  · exact Nat.zero_le _

theorem get_rest {v : UInt8} {b b' : Buffer} (h : b.get = (some v, b')) :
    b'.rest.length ≤ b.rest.length := by
  unfold Buffer.get at h
  split at h
  · cases h
  · cases h
    rw [Buffer.rest_skip, List.length_drop]
    omega

/-- A read that succeeds keeps what the reader behind the sentry did. -/
theorem readString_ok {target str : Bytes} {utf8 : Bool} {b b' : Buffer}
    (h : readString target utf8 b = .ok (true, str, b')) :
    readString' target b = .ok (true, str, b') := by
  unfold readString Buffer.sentry at h
  split at h
  · cases h
  · cases h
    assumption
  · cases h

/-- A string that is read is no longer than what is left of the buffer. -/
theorem readString_length {target str : Bytes} {utf8 : Bool} {b b' : Buffer}
    (h : readString target utf8 b = .ok (true, str, b')) :
    str.length ≤ b.rest.length := by
  have hread := readString_ok h
  unfold readString' at hread
  split at hread
  · cases hread
  · rename_i v b₁ hget
    have hb₁ := get_rest hget
    split at hread
    · cases hread
      exact Nat.zero_le _
    · split at hread
      · cases hread
      · have huntil := readUntil_rest tagQuote b₁
        split at hread
        rename_i lenS b₂ hlen
        rw [hlen] at huntil
        split at hread
        · split at hread
          · cases hread
            exact Nat.zero_le _
          · cases hread
        · dsimp only at hread
          split at hread
          · cases hread
          · have hbin := readN_length (atoi lenS).toNat b₂
            split at hread
            · cases hread
            · split at hread
              · cases hread
                exact Nat.le_trans hbin (Nat.le_trans huntil hb₁)
              · cases hread

end Bodies

section Answering

variable {functions : Functions σ} {requestData method : Bytes} {reader : Buffer}
    {st : σ} {answer : Answer σ}

/-- The names are short enough for the format, and it can carry the results. -/
structure Modest (regs : List (Bytes × Callee σ)) : Prop where
  few : regs.length < 2 ^ 31
  names : ∀ r ∈ regs, r.1.length < 2 ^ 31
  plain : ∀ r ∈ regs, Plain r.2.result

theorem carries_names {regs : List (Bytes × Callee σ)} (h : Modest regs) :
    Carries tagFunctions (readVector [] (fun target b => readString target false b) [])
      (registerAll regs).keys
      (getFunctionList (registerAll regs)) := by
  obtain ⟨hmem, hlen⟩ := keys_registerAll regs
  rw [getFunctionList_eq]
  refine carries_of_decodes tagFunctions []
    (vector_decodes _ (Nat.lt_of_le_of_lt hlen h.few) fun name hname => ?_)
  obtain ⟨r, hr, rfl⟩ := List.mem_map.mp (hmem name hname)
  exact string_decodes false (h.names r hr) (stringLength_bytes (h.names r hr))

theorem reply_callee {callee : Callee σ} {entry : Bytes} (htag : requestData.head? = some tagCall)
    (hname : Named requestData method reader) (hfound : Found functions method entry callee)
    (hplain : Plain callee.result)
    (hshort : ∀ args, Chosen functions requestData entry callee args →
      Short callee.result (callee.fn args st).1)
    (h : callee.call entry reader st = .ok answer) :
    Reply functions requestData st answer := by
  unfold Callee.call at h
  split at h
  · cases h
  · rename_i reader' hargs
    cases h
    exact .unread htag (.argument hname hfound hargs) says_errorArguments
  · rename_i args reader' hargs
    cases h
    have hchosen : Chosen functions requestData entry callee args :=
      ⟨hfound.1, method, reader, reader', hname, hargs, hfound⟩
    refine .result htag hchosen ?_
    rw [r2Hprose_eq]
    exact carries_of_decodes tagResult _ (ty_decodes _ hplain _ (hshort args hchosen))

/-- What every answer to a call is. -/
theorem reply_call {regs : List (Bytes × Callee σ)} (hmodest : Modest regs)
    (htag : requestData.head? = some tagCall) (hlen : requestData.length + 10 < 2 ^ 31)
    (hname : Named requestData method reader)
    (hshort : ∀ entry callee args, Chosen (registerAll regs) requestData entry callee args →
      Short callee.result (callee.fn args st).1)
    (h : call (registerAll regs) method reader st = .ok answer) :
    Reply (registerAll regs) requestData st answer := by
  have hcallee {entry : Bytes} {callee : Callee σ}
      (hfound : Found (registerAll regs) method entry callee)
        (h : callee.call entry reader st = .ok answer) :
        Reply (registerAll regs) requestData st answer :=
    reply_callee htag hname hfound (hmodest.plain _ (mem_of_registered hfound.1))
      (hshort entry callee) h
  unfold call at h
  split at h
  · rename_i callee hfound
    exact hcallee ⟨hfound, .inl rfl⟩ h
  · rename_i hnone
    split at h
    · rename_i callee hfound
      exact hcallee ⟨hfound, .inr ⟨rfl, hnone⟩⟩ h
    · rename_i hany
      cases h
      refine .missing htag hname hnone hany (says_error ?_)
      have hmethod := readString_length hname
      have hten : (ascii "No Callee ").length = 10 := by decide
      rw [List.length_append, hten]
      simp only [Buffer.rest, List.length_drop] at hmethod
      omega

/-- Whatever the registrations and the request, an answer is a whole message that is read back
as what it means, and the first registration of a name is the one that counts. -/
theorem replies_read (regs : List (Bytes × Callee σ)) (requestData : Bytes)
    (st : σ) (answer : Answer σ) (hmodest : Modest regs) (hlen : requestData.length + 10 < 2 ^ 31)
    (hshort : ∀ entry callee args, Chosen (registerAll regs) requestData entry callee args →
      Short callee.result (callee.fn args st).1)
    (h : callMethod (registerAll regs) requestData st = .ok answer) :
    Reply (registerAll regs) requestData st answer ∧
      ∀ name, (registerAll regs)[name]? = (regs.find? fun r => r.1 == name).map Prod.snd := by
  refine ⟨?_, getElem?_registerAll regs⟩
  cases requestData with
  | nil =>
    cases h
    exact .unsupported (by simp) (by simp) (says_error (by decide))
  | cons flag rest =>
    have hget : Buffer.get ⟨flag :: rest, 0⟩ = (some flag, ⟨flag :: rest, 1⟩) := rfl
    simp only [callMethod, hget, Option.some.injEq] at h
    split at h
    · rename_i hflag
      cases h
      exact .names (by rw [hflag]; rfl) (carries_names hmodest)
    · rename_i hend
      split at h
      · rename_i hflag
        have hcall : (flag :: rest).head? = some tagCall := by rw [hflag]; rfl
        split at h
        · cases h
        · rename_i hname
          cases h
          exact .unread hcall (.name hname) says_errorArguments
        · rename_i method reader hname
          exact reply_call hmodest hcall hlen hname hshort h
      · rename_i hcall
        cases h
        exact .unsupported (by simpa using hend) (by simpa using hcall) (says_error (by decide))

theorem measure_arity : [Ty.elem .string].length ≤ 3 := one_arity _

/-- The state counts the calls. -/
def measure : Callee Nat where
  args := [.elem .string]
  arity := measure_arity
  result := .elem (.integer .int32)
  fn := fun args st => (IntTy.int32.cast args.1.length, st + 1)

def other : Callee Nat := ⟨[.bool], one_arity _, .bool, fun args st => (!args.1, st + 1)⟩

/-- The second registration of the name does not count. -/
def measures : List (Bytes × Callee Nat) :=
    [(ascii "len", measure), (anyMethod, other), (ascii "len", other)]

theorem replies_read_measure : ∃ answer,
    callMethod (registerAll measures)
      (requestBody (ascii "len") [.elem .string] ([104, 105], ())) 0 = .ok answer ∧
    Reply (registerAll measures)
      (requestBody (ascii "len") [.elem .string] ([104, 105], ())) 0 answer ∧
      ∀ name, (registerAll measures)[name]? =
        (measures.find? fun r => r.1 == name).map Prod.snd := by
  have hregs : ∀ r ∈ measures, r.1.length < 2 ^ 31 ∧ Plain r.2.result ∧
      ∀ v, Short r.2.result v := by
    simp only [measures, List.forall_mem_cons]
    exact ⟨⟨by decide, .inl rfl, fun _ => trivial⟩, ⟨by decide, trivial, fun _ => trivial⟩,
      ⟨by decide, trivial, fun _ => trivial⟩, by simp⟩
  have hmodest : Modest measures :=
    ⟨by decide, fun r hr => (hregs r hr).1, fun r hr => (hregs r hr).2.1⟩
  obtain ⟨answer, h⟩ : ∃ answer, callMethod (registerAll measures)
      (requestBody (ascii "len") [.elem .string] ([104, 105], ())) 0 = .ok answer := by
    have hok : (match callMethod (registerAll measures)
        (requestBody (ascii "len") [.elem .string] ([104, 105], ())) 0 with
        | .ok _ => true
        | .error _ => false) = true := by decide +kernel
    split at hok
    · exact ⟨_, by assumption⟩
    · cases hok
  refine ⟨answer, h, replies_read measures _ 0 answer hmodest (by decide +kernel)
    (fun entry callee args hchosen => ?_) h⟩
  exact (hregs _ (mem_of_registered hchosen.registered)).2.2 _

end Answering

end Ucorf.HproseReplies
