import Mathlib.Data.List.Basic
import Mathlib.Tactic.Common

/-!
# Codes that end by themselves

A text that is put together of parts tells its parts when each part can be told from the
front of whatever it stands in front of. Here is when a list of such parts is one.
-/
namespace Ucorf.PrefixCodes

variable {α β γ : Type}

/-- The front of a text shows `view` of the value that is written there and where it ends. -/
def PrefixCode (Ok : α → Prop) (view : α → γ) (code : α → List β) : Prop :=
  ∀ x y t u, Ok x → Ok y → code x ++ t = code y ++ u → view x = view y ∧ t = u

/-- A word ends at the first letter that it does not have. -/
theorem word_ends {c : β} {s s' t u : List β} (hs : c ∉ s) (hs' : c ∉ s')
    (h : s ++ c :: t = s' ++ c :: u) : s = s' ∧ t = u := by
  induction s generalizing s' with
  | nil =>
    cases s' with
    | nil => exact ⟨rfl, (List.cons.inj h).2⟩
    | cons d s' => exact absurd (List.mem_cons.mpr (.inl (List.cons.inj h).1)) hs'
  | cons d s ih =>
    cases s' with
    | nil => exact absurd (List.mem_cons.mpr (.inl (List.cons.inj h).1.symm)) hs
    | cons d' s' =>
      obtain ⟨rfl, htail⟩ := List.cons.inj h
      obtain ⟨rfl, rfl⟩ := ih (fun hc => hs (List.mem_cons_of_mem _ hc))
        (fun hc => hs' (List.mem_cons_of_mem _ hc)) htail
      exact ⟨rfl, rfl⟩

variable {Ok : α → Prop} {view : α → γ} {code : α → List β}

/-- A list ends where something else begins than one of its elements. -/
theorem PrefixCode.list {a b b' : β} {t u : List β} (h : PrefixCode Ok view code)
    (hhead : ∀ x, (code x).head? = some a) (hb : b ≠ a) (hb' : b' ≠ a) {xs ys : List α}
    (hxs : ∀ x ∈ xs, Ok x) (hys : ∀ y ∈ ys, Ok y)
    (heq : xs.flatMap code ++ b :: t = ys.flatMap code ++ b' :: u) :
    xs.map view = ys.map view ∧ b :: t = b' :: u := by
  have hcode (x : α) : ∃ s, code x = a :: s := by
    cases hx : code x with
    | nil =>
      have hnone := hhead x
      rw [hx] at hnone
      cases hnone
    | cons c s =>
      have hsome := hhead x
      rw [hx, List.head?_cons, Option.some.injEq] at hsome
      exact ⟨s, by rw [hsome]⟩
  induction xs generalizing ys with
  | nil =>
    cases ys with
    | nil => exact ⟨rfl, heq⟩
    | cons y ys =>
      obtain ⟨s, hs⟩ := hcode y
      rw [List.flatMap_cons, hs] at heq
      exact absurd (List.cons.inj heq).1 hb
  | cons x xs ih =>
    cases ys with
    | nil =>
      obtain ⟨s, hs⟩ := hcode x
      rw [List.flatMap_cons, hs] at heq
      exact absurd (List.cons.inj heq).1.symm hb'
    | cons y ys =>
      rw [List.flatMap_cons, List.flatMap_cons, List.append_assoc, List.append_assoc] at heq
      obtain ⟨hview, hrest⟩ := h x y _ _ (hxs x List.mem_cons_self) (hys y List.mem_cons_self) heq
      obtain ⟨hmap, hend⟩ := ih (fun z hz => hxs z (List.mem_cons_of_mem _ hz))
        (fun z hz => hys z (List.mem_cons_of_mem _ hz)) hrest
      exact ⟨by rw [List.map_cons, List.map_cons, hview, hmap], hend⟩

/-- A loop over elements that it sees only through `view`. -/
theorem foldl_view {σ : Type} {f : σ → α → σ} (hf : ∀ s x y, view x = view y → f s x = f s y)
    {xs ys : List α} (h : xs.map view = ys.map view) (s : σ) : xs.foldl f s = ys.foldl f s := by
  induction xs generalizing ys s with
  | nil =>
    cases ys with
    | nil => rfl
    | cons y ys => cases h
  | cons x xs ih =>
    cases ys with
    | nil => cases h
    | cons y ys =>
      obtain ⟨hview, htail⟩ := List.cons.inj h
      rw [List.foldl_cons, List.foldl_cons, hf s x y hview]
      exact ih htail _

theorem flatMap_view {f : α → List β} (hf : ∀ x y, view x = view y → f x = f y) {xs ys : List α}
    (h : xs.map view = ys.map view) : xs.flatMap f = ys.flatMap f := by
  have hstep (s : List β) (x y : α) (hview : view x = view y) : s ++ f x = s ++ f y := by
    rw [hf x y hview]
  have hloop (zs : List α) (s : List β) : zs.foldl (fun s x => s ++ f x) s = s ++ zs.flatMap f := by
    induction zs generalizing s with
    | nil => simp
    | cons z zs ih => rw [List.foldl_cons, ih, List.flatMap_cons, List.append_assoc]
  have heq := foldl_view hstep h []
  rwa [hloop, hloop] at heq

end Ucorf.PrefixCodes
