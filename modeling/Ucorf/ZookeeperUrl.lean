import Mathlib.Data.List.DropRight
import Mathlib.Data.List.Induction
import Mathlib.Tactic.Common
import Ucorf.Message

/-!
# Urls and node names

How `ZookeeperClientMgr` takes a zookeeper url apart and names the node of a server
after its address. Strings are their bytes, and `regex_match` is a full match.
-/
namespace Ucorf.ZookeeperUrl

open Ucorf.Message

/-- The byte `/`. -/
def slash : UInt8 := 47

/-- The byte `:`. -/
def colon : UInt8 := 58

/-- The bytes of `://`. -/
def schemeEnd : Bytes := [58, 47, 47]

/-- The bytes of `TCP`. -/
def tcp : Bytes := [84, 67, 80]

/-- `istarts_with(url, "zk://")`. -/
def startsWithZk : Bytes → Bool
  | z :: k :: rest => (z == 122 || z == 90) && (k == 107 || k == 75) && schemeEnd.isPrefixOf rest
  | _ => false

/-- The address and the path, both empty on an error. -/
def parseZookeeperUrl (url : Bytes) : Bytes × Bytes :=
  if startsWithZk url then
    let rest := url.drop 5
    if slash ∈ rest then (rest.takeWhile (· != slash), rest.dropWhile (· != slash)) else ([], [])
  else ([], [])

/-- The second and the third group of a match of `((.*)://)?([^/]+)`: the last group is
what follows the last slash, and a slash has to end a `://`. -/
def matchUrl (url : Bytes) : Option (Bytes × Bytes) :=
  let addr := url.rtakeWhile (· != slash)
  let head := url.rdropWhile (· != slash)
  if addr = [] then none
  else if head = [] then some ([], addr)
  else if schemeEnd.isSuffixOf head then some (head.take (head.length - 3), addr)
  else none

def url2ZookeeperNode (url : Bytes) : Bytes :=
  match matchUrl url with
  | none => []
  | some (proto, addr) => addr ++ [colon] ++ (if proto = [] then tcp else proto)

/-- The node is split at its last colon. -/
def zookeeperNode2Url (node : Bytes) : Bytes :=
  if colon ∈ node then
    node.rtakeWhile (· != colon) ++ schemeEnd ++ (node.rdropWhile (· != colon)).dropLast
  else []

section Matching

variable {c : UInt8} {x y url proto addr : Bytes}

theorem rtakeWhile_last (hx : c ∉ x) (y : Bytes) : (y ++ c :: x).rtakeWhile (· != c) = x := by
  induction x using List.reverseRecOn with
  | nil => exact List.rtakeWhile_concat_neg _ _ _ (by simp)
  | append_singleton x b ih =>
    have hb : b ≠ c := fun h => hx (by simp [h])
    have hsplit : y ++ c :: (x ++ [b]) = (y ++ c :: x) ++ [b] := by simp
    rw [hsplit, List.rtakeWhile_concat_pos _ _ _ (by simpa using hb), ih fun h => hx (by simp [h])]

theorem rdropWhile_last (hx : c ∉ x) (y : Bytes) :
    (y ++ c :: x).rdropWhile (· != c) = y ++ [c] := by
  have hwhole : (y ++ c :: x).rdropWhile (· != c) ++
      (y ++ c :: x).rtakeWhile (· != c) = y ++ c :: x :=
    List.rdropWhile_append_rtakeWhile
  have hsplit : y ++ c :: x = (y ++ [c]) ++ x := by simp
  rw [rtakeWhile_last hx] at hwhole
  conv at hwhole => rhs; rw [hsplit]
  exact List.append_cancel_right hwhole

/-- A full match of `((.*)://)?([^/]+)` with its second and its third group. -/
inductive Matches : Bytes → Bytes → Bytes → Prop where
  | plain {addr : Bytes} (hne : addr ≠ []) (haddr : slash ∉ addr) : Matches addr [] addr
  | scheme {proto addr : Bytes} (hne : addr ≠ []) (haddr : slash ∉ addr) :
      Matches (proto ++ schemeEnd ++ addr) proto addr

theorem matchUrl_of_matches (h : Matches url proto addr) : matchUrl url = some (proto, addr) := by
  cases h with
  | plain hne hurl =>
    have hall : ∀ b ∈ url, (b != slash) = true := by
      intro b hb
      have hb : b ≠ slash := fun h => hurl (h ▸ hb)
      simpa using hb
    have htake : url.rtakeWhile (· != slash) = url := List.rtakeWhile_eq_self_iff.mpr hall
    have hdrop : url.rdropWhile (· != slash) = [] := List.rdropWhile_eq_nil_iff.mpr hall
    simp only [matchUrl, htake, hdrop, hne, if_false, if_true]
  | scheme hne haddr =>
    have hsplit : proto ++ schemeEnd ++ addr = (proto ++ [colon, slash]) ++ slash :: addr := by
      simp [schemeEnd, colon, slash]
    have hhead : proto ++ [colon, slash] ++ [slash] = proto ++ schemeEnd := by
      simp [schemeEnd, colon, slash]
    have hsuffix : schemeEnd.isSuffixOf (proto ++ schemeEnd) = true :=
      List.isSuffixOf_iff_suffix.mpr (List.suffix_append _ _)
    have htake : (proto ++ schemeEnd).take ((proto ++ schemeEnd).length - 3) = proto :=
      List.take_left' (by simp [schemeEnd])
    have hhead_ne : proto ++ schemeEnd ≠ [] := by simp [schemeEnd]
    rw [hsplit]
    simp only [matchUrl, rtakeWhile_last haddr, rdropWhile_last haddr, hhead, hne, hhead_ne,
      if_false, hsuffix, if_true, htake]

theorem matches_of_matchUrl (h : matchUrl url = some (proto, addr)) : Matches url proto addr := by
  have hwhole : url.rdropWhile (· != slash) ++ url.rtakeWhile (· != slash) = url :=
    List.rdropWhile_append_rtakeWhile
  have hslash : slash ∉ url.rtakeWhile (· != slash) := by
    intro hmem
    have hpass := List.mem_rtakeWhile_imp hmem
    simp at hpass
  simp only [matchUrl] at h
  split at h
  · cases h
  · rename_i hne
    split at h
    · rename_i hnil
      cases h
      rw [hnil, List.nil_append] at hwhole
      have hplain := Matches.plain hne hslash
      rw [hwhole] at hplain ⊢
      exact hplain
    · split at h
      · rename_i hsuffix
        obtain ⟨t, ht⟩ := List.isSuffixOf_iff_suffix.mp hsuffix
        have htake : (t ++ schemeEnd).take ((t ++ schemeEnd).length - 3) = t :=
          List.take_left' (by simp [schemeEnd])
        have hscheme : Matches (t ++ schemeEnd ++ url.rtakeWhile (· != slash)) t
            (url.rtakeWhile (· != slash)) :=
          .scheme hne hslash
        rw [ht, hwhole] at hscheme
        rw [← ht, htake] at h
        cases h
        exact hscheme
      · cases h

/-- There is one match at most, so it does not matter which of them greed would take. -/
theorem matchUrl_iff : matchUrl url = some (proto, addr) ↔ Matches url proto addr :=
  ⟨matches_of_matchUrl, matchUrl_of_matches⟩

end Matching

section Names

theorem url_split {node : Bytes} (h : colon ∈ node) :
    zookeeperNode2Url node = node.rtakeWhile (· != colon) ++
      (colon :: (slash :: slash :: (node.rdropWhile (· != colon)).dropLast)) ∧
      colon ∉ node.rtakeWhile (· != colon) ∧
      node = (node.rdropWhile (· != colon)).dropLast ++ colon :: node.rtakeWhile (· != colon) := by
  refine ⟨?_, ?_, ?_⟩
  · rw [zookeeperNode2Url, if_pos h, List.append_assoc]
    rfl
  · intro hmem
    have hpass := List.mem_rtakeWhile_imp hmem
    simp at hpass
  · have hne : node.rdropWhile (· != colon) ≠ [] := by
      intro hnil
      have hall := List.rdropWhile_eq_nil_iff.mp hnil colon h
      simp at hall
    have hlast : (node.rdropWhile (· != colon)).getLast hne = colon := by
      have hnot := List.rdropWhile_last_not (· != colon) node hne
      simpa using hnot
    have hinit := List.dropLast_append_getLast hne
    rw [hlast] at hinit
    have hwhole : node.rdropWhile (· != colon) ++ node.rtakeWhile (· != colon) = node :=
      List.rdropWhile_append_rtakeWhile
    conv_lhs => rw [← hwhole, ← hinit]
    simp

theorem url_ne_nil {node : Bytes} (h : colon ∈ node) : zookeeperNode2Url node ≠ [] := by
  rw [(url_split h).1]
  simp

theorem url_eq_nil {node : Bytes} : zookeeperNode2Url node = [] ↔ colon ∉ node := by
  constructor
  · intro hnil hmem
    exact url_ne_nil hmem hnil
  · intro hnot
    rw [zookeeperNode2Url, if_neg hnot]

/-- Names with a colon have different urls. -/
theorem url_injective {a b : Bytes} (ha : colon ∈ a)
    (h : zookeeperNode2Url a = zookeeperNode2Url b) :
    a = b := by
  have hb : colon ∈ b := by
    by_contra hnot
    exact url_ne_nil ha (h.trans (url_eq_nil.mpr hnot))
  obtain ⟨hurl, hproto, hnode⟩ := url_split ha
  obtain ⟨hurl', hproto', hnode'⟩ := url_split hb
  rw [hurl, hurl'] at h
  obtain ⟨hprotos, hrest⟩ := split_unique hproto hproto' h
  have haddrs := (List.cons.inj (List.cons.inj hrest).2).2
  rw [hnode, hnode', hprotos, haddrs]

/-- The url that a node name is read as, whatever colons the address has. -/
theorem url_of_node {proto : Bytes} (hcolon : colon ∉ proto) (addr : Bytes) :
    zookeeperNode2Url (addr ++ [colon] ++ proto) = proto ++ schemeEnd ++ addr := by
  have hsplit : addr ++ [colon] ++ proto = addr ++ colon :: proto := by simp
  rw [hsplit, zookeeperNode2Url, if_pos (by simp), rtakeWhile_last hcolon, rdropWhile_last hcolon,
    List.dropLast_concat]

/-- A scheme as `Url2ZookeeperNode` is meant to get it. -/
structure Scheme (proto : Bytes) : Prop where
  nonempty : proto ≠ []
  noColon : colon ∉ proto
  noSlash : slash ∉ proto

structure Address (addr : Bytes) : Prop where
  nonempty : addr ≠ []
  noSlash : slash ∉ addr

variable {proto addr : Bytes}

theorem node_of_url (hproto : Scheme proto) (haddr : Address addr) :
    url2ZookeeperNode (proto ++ schemeEnd ++ addr) = addr ++ [colon] ++ proto := by
  have hmatches : Matches (proto ++ schemeEnd ++ addr) proto addr :=
    .scheme haddr.nonempty haddr.noSlash
  have hmatch := matchUrl_of_matches hmatches
  simp only [url2ZookeeperNode, hmatch, if_neg hproto.nonempty]

theorem node_of_address (haddr : Address addr) :
    url2ZookeeperNode addr = addr ++ [colon] ++ tcp := by
  have hmatch := matchUrl_of_matches (.plain haddr.nonempty haddr.noSlash)
  simp only [url2ZookeeperNode, hmatch, if_true]

theorem scheme_tcp : Scheme tcp := ⟨by decide, by decide, by decide⟩

theorem slash_not_mem_node (hproto : Scheme proto) (haddr : Address addr) :
    slash ∉ addr ++ [colon] ++ proto := by
  have hne : slash ≠ colon := by decide
  simp [haddr.noSlash, hproto.noSlash, hne]

/-- A server address survives its way through a node name. -/
theorem url_survives (hproto : Scheme proto) (haddr : Address addr) :
    zookeeperNode2Url (url2ZookeeperNode (proto ++ schemeEnd ++ addr)) =
      proto ++ schemeEnd ++ addr ∧
    zookeeperNode2Url (url2ZookeeperNode addr) = tcp ++ schemeEnd ++ addr ∧
    slash ∉ url2ZookeeperNode (proto ++ schemeEnd ++ addr) ∧ slash ∉ url2ZookeeperNode addr ∧
    ∀ proto' addr', Scheme proto' → Address addr' →
      proto ++ schemeEnd ++ addr ≠ proto' ++ schemeEnd ++ addr' →
      url2ZookeeperNode (proto ++ schemeEnd ++ addr) ≠
        url2ZookeeperNode (proto' ++ schemeEnd ++ addr') := by
  have hround : ∀ {proto addr : Bytes}, Scheme proto → Address addr →
      zookeeperNode2Url (url2ZookeeperNode (proto ++ schemeEnd ++ addr)) =
        proto ++ schemeEnd ++ addr := by
    intro proto addr hproto haddr
    rw [node_of_url hproto haddr, url_of_node hproto.noColon]
  refine ⟨hround hproto haddr, ?_, ?_, ?_, ?_⟩
  · rw [node_of_address haddr, url_of_node scheme_tcp.noColon]
  · rw [node_of_url hproto haddr]
    exact slash_not_mem_node hproto haddr
  · rw [node_of_address haddr]
    exact slash_not_mem_node scheme_tcp haddr
  · intro proto' addr' hproto' haddr' hne hnode
    apply hne
    rw [← hround hproto haddr, hnode, hround hproto' haddr']

/-- The address `h:1` with the scheme `U`, against the same one with `V`. -/
theorem url_survives_port :
    zookeeperNode2Url (url2ZookeeperNode ([85] ++ schemeEnd ++ [104, 58, 49])) = [85] ++
      schemeEnd ++ [104, 58, 49] ∧
    zookeeperNode2Url (url2ZookeeperNode [104, 58, 49]) = tcp ++ schemeEnd ++ [104, 58, 49] ∧
    slash ∉ url2ZookeeperNode ([85] ++ schemeEnd ++ [104, 58, 49]) ∧
    slash ∉ url2ZookeeperNode [104, 58, 49] ∧
    url2ZookeeperNode ([85] ++ schemeEnd ++ [104, 58, 49]) ≠
      url2ZookeeperNode ([86] ++ schemeEnd ++ [104, 58, 49]) := by
  have hscheme : Scheme [85] := ⟨by decide, by decide, by decide⟩
  have hother : Scheme [86] := ⟨by decide, by decide, by decide⟩
  have haddr : Address [104, 58, 49] := ⟨by decide, by decide⟩
  obtain ⟨hround, hplain, hslash, hslash', hdistinct⟩ := url_survives hscheme haddr
  exact ⟨hround, hplain, hslash, hslash', hdistinct [86] [104, 58, 49] hother haddr (by decide)⟩

/-- A colon in the scheme goes over to the address. -/
example : url2ZookeeperNode ([97, 58, 98] ++ schemeEnd ++ [99]) =
    url2ZookeeperNode ([98] ++ schemeEnd ++ [99, 58, 97]) := by
  decide

end Names

end Ucorf.ZookeeperUrl
