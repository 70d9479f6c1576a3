import Mathlib.Order.Lattice
import Mathlib.Data.Set.Basic
import Mathlib.Tactic.Common

/-!
# Points on a ring

A search goes from a place on an ordered ring to the next point, around the end if need
be. Every point has an owner and a value. Points that are added take over what they are
found for and leave the rest alone, and points that are removed give up what they were
found for only.
-/
namespace Ucorf.Ring

variable {α O V : Type*}

section Points

/-- The points of a ring, with their owners and values. -/
abbrev Points (α O V : Type*) := α → Option (O × V)

def places (R : Points α O V) : Set α := {p | (R p).isSome}

theorem mem_places {R : Points α O V} {p : α} : p ∈ places R ↔ (R p).isSome := Iff.rfl

/-- Free places have been given to `o`, with the value `v`. -/
def Added (R R' : Points α O V) (o : O) (v : V) : Prop :=
  ∀ p, R' p = R p ∨ (R p = none ∧ R' p = some (o, v))

/-- The points of `o` have been taken away. -/
def Removed (R R' : Points α O V) (o : O) : Prop :=
  ∀ p, (∀ v, R p = some (o, v) → R' p = none) ∧ ((∀ v, R p ≠ some (o, v)) → R' p = R p)

variable {R R' : Points α O V} {o : O} {v : V}

theorem Added.places_subset (ha : Added R R' o v) : places R ⊆ places R' := by
  intro p hp
  obtain hsame | ⟨hfree, -⟩ := ha p
  · rwa [mem_places, hsame]
  · rw [mem_places, hfree] at hp
    cases hp

theorem Removed.places_subset (hr : Removed R R' o) : places R' ⊆ places R := by
  intro p hp
  by_cases howned : ∃ v, R p = some (o, v)
  · obtain ⟨v, hv⟩ := howned
    rw [mem_places, (hr p).1 v hv] at hp
    cases hp
  · have hsame := (hr p).2 (not_exists.mp howned)
    rwa [mem_places, hsame] at hp

end Points

section Search

variable [LinearOrder α]

/-- The search from `h` ends at the point `p` of `S`. -/
def Selects (S : Set α) (h p : α) : Prop :=
  p ∈ S ∧ ((h ≤ p ∧ ∀ q ∈ S, h ≤ q → p ≤ q) ∨ ∀ q ∈ S, q < h ∧ p ≤ q)

theorem Selects.unique {S : Set α} {h p q : α} (hp : Selects S h p)
    (hq : Selects S h q) : p = q := by
  obtain ⟨hpS, ⟨hle, hnext⟩ | hlow⟩ := hp
  · obtain ⟨hqS, ⟨hle', hnext'⟩ | hlow'⟩ := hq
    · exact le_antisymm (hnext q hqS hle') (hnext' p hpS hle)
    · exact absurd hle (not_le_of_gt (hlow' p hpS).1)
  · obtain ⟨hqS, ⟨hle', hnext'⟩ | hlow'⟩ := hq
    · exact absurd hle' (not_le_of_gt (hlow q hqS).1)
    · exact le_antisymm (hlow q hqS).2 (hlow' p hpS).2

/-- A point that is found among more points is found among fewer. -/
theorem Selects.of_subset {S S' : Set α} {h p : α} (hsub : S ⊆ S') (hp : Selects S' h p)
    (hmem : p ∈ S) :
    Selects S h p := by
  obtain ⟨-, ⟨hle, hnext⟩ | hlow⟩ := hp
  · exact ⟨hmem, .inl ⟨hle, fun q hq => hnext q (hsub hq)⟩⟩
  · exact ⟨hmem, .inr fun q hq => hlow q (hsub hq)⟩

/-- The search over sorted entries: the first one that is not below `h`, or the first one. -/
def search {β : Type*} (l : List (α × β)) (h : α) : Option (α × β) :=
  (l.find? fun e => h ≤ e.1).or l.head?

theorem find_sorted {β : Type*} {l : List (α × β)} (hl : l.Pairwise fun a b => a.1 < b.1)
    {h : α} {e : α × β}
    (hfind : (l.find? fun e => h ≤ e.1) = some e) :
    e ∈ l ∧ h ≤ e.1 ∧ ∀ x ∈ l, h ≤ x.1 → e.1 ≤ x.1 := by
  induction l with
  | nil => cases hfind
  | cons a l ih =>
    obtain ⟨hhead, htail⟩ := List.pairwise_cons.mp hl
    by_cases ha : h ≤ a.1
    · rw [List.find?_cons_of_pos (by simpa using ha)] at hfind
      cases hfind
      refine ⟨List.mem_cons_self, ha, ?_⟩
      intro x hx _
      obtain rfl | hx := List.mem_cons.mp hx
      · exact le_rfl
      · exact le_of_lt (hhead x hx)
    · rw [List.find?_cons_of_neg (by simpa using ha)] at hfind
      obtain ⟨hmem, hle, hnext⟩ := ih htail hfind
      refine ⟨List.mem_cons_of_mem a hmem, hle, ?_⟩
      intro x hx hhx
      obtain rfl | hx := List.mem_cons.mp hx
      · exact absurd hhx ha
      · exact hnext x hx hhx

/-- The search ends at the point that it should, and at none only if there is none. -/
theorem search_selects {β : Type*} {l : List (α × β)} (hl : l.Pairwise fun a b => a.1 < b.1)
    {h : α} {e : α × β}
    (hs : search l h = some e) : e ∈ l ∧ Selects {p | p ∈ l.map Prod.fst} h e.1 := by
  have hplace {x : α × β} (hx : x ∈ l) : x.1 ∈ l.map Prod.fst := List.mem_map_of_mem hx
  obtain hfind | ⟨hnone, hhead⟩ := Option.or_eq_some_iff.mp hs
  · obtain ⟨hmem, hle, hnext⟩ := find_sorted hl hfind
    refine ⟨hmem, hplace hmem, .inl ⟨hle, ?_⟩⟩
    intro q hq hhq
    obtain ⟨x, hx, rfl⟩ := List.mem_map.mp hq
    exact hnext x hx hhq
  · have hmem := List.mem_of_head? hhead
    refine ⟨hmem, hplace hmem, .inr ?_⟩
    intro q hq
    obtain ⟨x, hx, rfl⟩ := List.mem_map.mp hq
    have hlow := List.find?_eq_none.mp hnone x hx
    refine ⟨lt_of_not_ge (by simpa using hlow), ?_⟩
    obtain ⟨l', rfl⟩ := List.head?_eq_some_iff.mp hhead
    obtain rfl | hx := List.mem_cons.mp hx
    · exact le_rfl
    · exact le_of_lt ((List.pairwise_cons.mp hl).1 x hx)

theorem search_eq_none {β : Type*} {l : List (α × β)} {h : α}
    (hs : search l h = none) : l = [] := by
  obtain ⟨-, hhead⟩ := Option.or_eq_none_iff.mp hs
  exact List.head?_eq_none_iff.mp hhead

/-- The search from `h` ends at a point of `o` with the value `v`. -/
def Found (R : Points α O V) (h : α) (o : O) (v : V) : Prop :=
  ∃ p, Selects (places R) h p ∧ R p = some (o, v)

variable {R R' : Points α O V} {o o' : O} {v v' : V} {h : α}

/-- After an addition a search finds what it found before or an added point. -/
theorem found_added (ha : Added R R' o v) (hf : Found R' h o' v') :
    Found R h o' v' ∨ (o' = o ∧ v' = v) := by
  obtain ⟨p, hp, hpoint⟩ := hf
  obtain hsame | ⟨-, hnew⟩ := ha p
  · rw [hsame] at hpoint
    exact .inl ⟨p, hp.of_subset ha.places_subset (Option.isSome_of_eq_some hpoint), hpoint⟩
  · rw [hnew] at hpoint
    cases hpoint
    exact .inr ⟨rfl, rfl⟩

/-- After a removal a search finds what it found before, if that is still there. -/
theorem found_removed (hr : Removed R R' o) (hf : Found R h o' v') (hne : o' ≠ o) :
    Found R' h o' v' := by
  obtain ⟨p, hp, hpoint⟩ := hf
  have hkept : R' p = some (o', v') := by
    rw [(hr p).2, hpoint]
    intro v hv
    rw [hpoint] at hv
    cases hv
    exact hne rfl
  exact ⟨p, hp.of_subset hr.places_subset (Option.isSome_of_eq_some hkept), hkept⟩

theorem not_found_removed (hr : Removed R R' o) : ¬ Found R' h o v := by
  rintro ⟨p, -, hpoint⟩
  by_cases howned : ∃ v, R p = some (o, v)
  · obtain ⟨w, hw⟩ := howned
    rw [(hr p).1 w hw] at hpoint
    cases hpoint
  · have hsame := (hr p).2 (not_exists.mp howned)
    rw [hsame] at hpoint
    exact howned ⟨v, hpoint⟩

/-- From `h` on, the search meets no point before `p` but those for which `P` holds. -/
structure Shielded (R : Points α O V) (h p : α) (P : O × V → Prop) : Prop where
  place : p ∈ places R
  before : ∀ q x, R q = some x → Selects {q, p} h q → P x

variable {P : O × V → Prop} {p : α}

/-- What the search finds satisfies it. -/
theorem Shielded.found (hs : Shielded R h p P) (hf : Found R h o v) : P (o, v) := by
  obtain ⟨q, hq, hpoint⟩ := hf
  refine hs.before q _ hpoint (hq.of_subset ?_ (.inl rfl))
  rintro r (rfl | rfl)
  · exact hq.1
  · exact hs.place

/-- The point that the search finds is shielded by itself. -/
theorem shielded_of_selects (hp : Selects (places R) h p)
    (hpoint : R p = some (o, v)) (hP : P (o, v)) : Shielded R h p P := by
  refine ⟨hp.1, ?_⟩
  intro q x hq hbefore
  have hsub : ({q, p} : Set α) ⊆ places R := by
    rintro r (rfl | rfl)
    · exact Option.isSome_of_eq_some hq
    · exact hp.1
  have hsame : q = p := hbefore.unique (hp.of_subset hsub (.inr rfl))
  rw [hsame, hpoint] at hq
  cases hq
  exact hP

theorem Shielded.added (hs : Shielded R h p P) (ha : Added R R' o v) (hP : P (o, v)) :
    Shielded R' h p P := by
  refine ⟨ha.places_subset hs.place, ?_⟩
  intro q x hq hbefore
  obtain hsame | ⟨-, hnew⟩ := ha q
  · rw [hsame] at hq
    exact hs.before q x hq hbefore
  · rw [hnew] at hq
    cases hq
    exact hP

/-- The points of others may go. -/
theorem Shielded.removed (hs : Shielded R h p P) (hr : Removed R R' o)
    (hkept : ∀ v, R p ≠ some (o, v)) : Shielded R' h p P := by
  refine ⟨?_, ?_⟩
  · rw [mem_places, (hr p).2 hkept]
    exact hs.place
  · intro q x hq hbefore
    have hold : R q = some x := by
      by_cases howned : ∃ v, R q = some (o, v)
      · obtain ⟨v, hv⟩ := howned
        rw [(hr q).1 v hv] at hq
        cases hq
      · rw [← (hr q).2 (not_exists.mp howned), hq]
    exact hs.before q x hold hbefore

end Search

end Ucorf.Ring
