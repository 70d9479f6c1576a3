import Ucorf.HproseReads
import Ucorf.HproseService

/-!
# What the stub makes of a response

The stub reports an error for every body that does not begin with a result tag. Behind
the tag it drops what `Read` returns, so a result that cannot be read comes back as a
default value without an error.
-/
namespace Ucorf.HproseResponses

open Ucorf.Message
open Ucorf.HproseProtocol
open Ucorf.HproseService
open Ucorf.HproseReads

/-- The stub returned with an error, or with the value that `Read` finds behind the result tag. -/
def Genuine (r : Ty) (body : Bytes) : Except StdException (r.Val × BoostEc) → Prop
  | .error _ => False
  | .ok (result, ec) => ec.failed = true ∨
    body.head? = some tagResult ∧ ∃ b, r.read r.default ⟨body, 1⟩ = .ok (true, result, b)

/-- Behind a result tag there is a value of the type. -/
def Answered (r : Ty) (body : Bytes) : Prop :=
  ∀ rest, body = tagResult :: rest → tyWidth r rest ≠ none

section Stub

variable {r : Ty} {body : Bytes} {ec : BoostEc}

theorem genuine_other (hhead : body.head? ≠ some tagResult) :
    Genuine r body (readResponse r ec body) := by
  unfold readResponse
  cases body with
  | nil => exact .inl (by decide)
  | cons c rest =>
    have hget : Buffer.get ⟨c :: rest, 0⟩ = (some c, ⟨c :: rest, 1⟩) := rfl
    have hc : some c ≠ some tagResult := hhead
    simp only [hget, if_neg hc]
    split
    · exact .inl (by decide)
    · exact .inl (by decide)

/-- The value counts exactly when it was read. -/
theorem genuine_result {rest : Bytes} (hec : ec.failed = false) :
    Genuine r (tagResult :: rest) (readResponse r ec (tagResult :: rest)) ↔
    tyWidth r rest ≠ none := by
  have hget : Buffer.get ⟨tagResult :: rest, 0⟩ = (some tagResult, ⟨tagResult :: rest, 1⟩) := rfl
  have hout := ty_takes r r.default ⟨tagResult :: rest, 1⟩
  have hrest : Buffer.rest ⟨tagResult :: rest, 1⟩ = rest := rfl
  have hclear : ¬ ec.failed = true := by simp [hec]
  rw [hrest] at hout
  unfold readResponse Genuine
  simp only [hget, if_true]
  generalize tyWidth r rest = w at hout
  generalize r.read r.default ⟨tagResult :: rest, 1⟩ = p at hout
  cases hout with
  | taken n v => exact iff_of_true (.inr ⟨rfl, _, rfl⟩) (by simp)
  | refused =>
    refine iff_of_false ?_ (by simp)
    rintro (hfailed | ⟨-, b, hread⟩)
    · exact hclear hfailed
    · cases hread
  | thrown e => exact iff_of_false id (by simp)

/-- When the transport call succeeded, the stub answers for its value exactly when a result
tag is followed by a value of the type. -/
theorem stub_genuine_iff (transport : Bytes → BoostEc × Bytes) (r : Ty) (method : Bytes)
    (ts : List Ty)
    (args : Vals ts) (hok : (transport (requestBody method ts args)).1.failed = false) :
    Genuine r (transport (requestBody method ts args)).2
      (stubCallMethod transport r method ts args) ↔
      Answered r (transport (requestBody method ts args)).2 := by
  unfold stubCallMethod
  generalize transport (requestBody method ts args) = p at hok
  obtain ⟨ec, body⟩ := p
  have hclear : ¬ ec.failed = true := by simp [show ec.failed = false from hok]
  dsimp only
  rw [if_neg hclear]
  by_cases hhead : body.head? = some tagResult
  · obtain ⟨rest, rfl⟩ := List.head?_eq_some_iff.mp hhead
    rw [genuine_result hok]
    constructor
    · rintro hwidth rest' heq
      cases heq
      exact hwidth
    · intro hall
      exact hall rest rfl
  · refine iff_of_true (genuine_other hhead) ?_
    rintro rest rfl
    exact absurd rfl hhead

/-- A response with the result 5. -/
theorem stub_genuine_five : (BoostEc.ok.failed = false) ∧
    Genuine (.elem (.integer .int32)) [82, 53, 122]
      (stubCallMethod (fun _ => (BoostEc.ok, [82, 53, 122]))
        (.elem (.integer .int32)) [] [] ()) := by
  have hiff :=
    stub_genuine_iff (fun _ => (BoostEc.ok, [82, 53, 122])) (.elem (.integer .int32)) [] [] () rfl
  refine ⟨rfl, hiff.mpr ?_⟩
  rintro rest heq
  cases heq
  decide

/-- The body ends behind the result tag, and the stub returns zero without an error. -/
theorem bare_not_genuine :
    stubCallMethod (fun _ => (BoostEc.ok, [82])) (.elem (.integer .int32)) [] [] () =
        .ok (IntTy.int32.cast 0, BoostEc.ok) ∧
      ¬ Genuine (.elem (.integer .int32)) [82]
        (stubCallMethod (fun _ => (BoostEc.ok, [82])) (.elem (.integer .int32)) [] [] ()) := by
  refine ⟨rfl, ?_⟩
  have hstub : stubCallMethod (fun _ => (BoostEc.ok, [82])) (.elem (.integer .int32)) [] [] () =
      readResponse (.elem (.integer .int32)) .ok [82] := rfl
  rw [hstub]
  intro h
  exact (genuine_result rfl).mp h rfl

end Stub

end Ucorf.HproseResponses
