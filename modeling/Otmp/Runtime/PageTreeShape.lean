import Mathlib.Data.List.Nodup
import Otmp.Runtime.PageTreeImages

/-!
# The shape of page trees

A page tree is well formed when every node below it is valid, names its children and is named by
the hash of its encoding. The pages of a tree are the entries of its leaves from left to right.
When they ascend, no two nodes of the tree have the same level and the same greatest page.
-/

namespace Otmp.Physical

open Foundation

variable {digest : Digest}

namespace Tree

/-- What holds of a tree whenever it holds of its children holds of every tree. -/
theorem induction {P : Tree → Prop} (step : ∀ t : Tree, (∀ c ∈ t.children, P c) → P t)
    (t : Tree) : P t :=
  step t fun c hc => by
    have hsmaller : sizeOf c < sizeOf t := by
      obtain ⟨reference, node, children, min, max⟩ := t
      have hlt := List.sizeOf_lt_of_mem hc
      dsimp only at hlt ⊢
      rw [Tree.mk.sizeOf_spec]
      omega
    exact induction step c
termination_by sizeOf t

mutual

/-- The entries of the leaves, from left to right. -/
def pages : Tree → List PageMapEntry
  | ⟨_, .leaf entries, _, _, _⟩ => entries
  | ⟨_, .internal _ _, children, _, _⟩ => pagesAll children

/-- The mappings of trees side by side, one tree after the other. -/
def pagesAll : List Tree → List PageMapEntry
  | [] => []
  | child :: children => child.pages ++ pagesAll children

end

mutual

/-- A tree and all trees below it, each before those below it. -/
def subtrees : Tree → List Tree
  | ⟨reference, node, children, min, max⟩ =>
    ⟨reference, node, children, min, max⟩ :: subtreesAll children

/-- The nodes of trees side by side, one tree after the other. -/
def subtreesAll : List Tree → List Tree
  | [] => []
  | child :: children => child.subtrees ++ subtreesAll children

end

/-- The references that a node makes to packs, one for each entry of a leaf. -/
def packs (t : Tree) : List PageObjectReference :=
  match t.node with
  | .leaf entries => entries.map PageMapEntry.pack
  | .internal _ _ => []

/-- The references to the nodes of a tree and to the packs of its pages. -/
def objects (t : Tree) : List PageObjectReference :=
  t.subtrees.flatMap fun s => s.reference :: s.packs

variable {t s c : Tree} {entries : List PageMapEntry} {branches : List PageMapBranch} {level : ℕ}

/-- The mappings of trees side by side are those of one after the other. -/
theorem pagesAll_eq (children : List Tree) : pagesAll children = children.flatMap pages := by
  induction children with
  | nil => rfl
  | cons child children ih => rw [pagesAll, ih, List.flatMap_cons]

/-- The nodes of trees side by side are those of one after the other. -/
theorem subtreesAll_eq (children : List Tree) :
    subtreesAll children = children.flatMap subtrees := by
  induction children with
  | nil => rfl
  | cons child children ih => rw [subtreesAll, ih, List.flatMap_cons]

/-- A leaf maps its entries. -/
theorem pages_leaf (h : t.node = .leaf entries) : t.pages = entries := by
  obtain ⟨reference, node, children, min, max⟩ := t
  dsimp only at h
  subst h
  rfl

/-- An internal node maps what its children map. -/
theorem pages_internal (h : t.node = .internal level branches) :
    t.pages = t.children.flatMap pages := by
  obtain ⟨reference, node, children, min, max⟩ := t
  dsimp only at h
  subst h
  exact pagesAll_eq children

/-- The nodes of a tree are its own and those of its children. -/
theorem subtrees_eq (t : Tree) : t.subtrees = t :: t.children.flatMap subtrees := by
  obtain ⟨reference, node, children, min, max⟩ := t
  rw [subtrees, subtreesAll_eq]

/-- A tree is one of its own nodes. -/
theorem self_mem_subtrees (t : Tree) : t ∈ t.subtrees := by
  rw [subtrees_eq]
  exact List.mem_cons_self

/-- What is below a child is below the tree. -/
theorem mem_subtrees_of_child (hc : c ∈ t.children) (hs : s ∈ c.subtrees) : s ∈ t.subtrees := by
  rw [subtrees_eq]
  exact List.mem_cons_of_mem _ (List.mem_flatMap.mpr ⟨c, hc, hs⟩)

/-- A tree below another is the tree itself or below one of its children. -/
theorem mem_subtrees_cases (h : s ∈ t.subtrees) :
    s = t ∨ ∃ c ∈ t.children, s ∈ c.subtrees := by
  rw [subtrees_eq] at h
  exact (List.mem_cons.mp h).imp_right List.mem_flatMap.mp

/-- What is below a tree below another is below that one. -/
theorem mem_subtrees_trans {r : Tree} (hs : s ∈ t.subtrees) (hr : r ∈ s.subtrees) :
    r ∈ t.subtrees := by
  induction t using Tree.induction with
  | step t ih =>
    obtain rfl | ⟨c, hc, hs⟩ := mem_subtrees_cases hs
    · exact hr
    · exact mem_subtrees_of_child hc (ih c hc hs)

/-- The objects of a tree with children. -/
theorem objects_eq (t : Tree) :
    t.objects = t.reference :: (t.packs ++ t.children.flatMap objects) := by
  rw [objects, subtrees_eq, List.flatMap_cons, List.flatMap_assoc]
  rfl

/-- A node that is valid, is named by the hash of its encoding, and names its children. -/
structure Linked (digest : Digest) (t : Tree) : Prop where
  reference : t.reference.InRange
  valid : t.node.validate = .ok ()
  inRange : t.node.InRange
  small : t.node.encode.length ≤ maxPageMapBytes
  sha256 : t.reference.sha256 = digest t.node.encode
  length : t.reference.length = t.node.encode.length
  leaf : ∀ entries, t.node = .leaf entries → t.children = []
  internal : ∀ level branches, t.node = .internal level branches →
    branches = t.children.map branch ∧ ∀ c ∈ t.children, c.node.level + 1 = level
  first : t.pages.head?.map PageMapEntry.pageNumber = some t.min
  last : t.pages.getLast?.map PageMapEntry.pageNumber = some t.max

/-- A linked tree with a child is a level above it, and its pages are those of its children. -/
theorem Linked.of_child (h : t.Linked digest) (hc : c ∈ t.children) :
    t.pages = t.children.flatMap pages ∧ c.node.level + 1 = t.node.level := by
  cases hnode : t.node with
  | leaf entries =>
    rw [h.leaf entries hnode] at hc
    cases hc
  | internal level branches =>
    exact ⟨pages_internal hnode, (h.internal level branches hnode).2 c hc⟩

/-- Every node of the tree is linked: its reference, its bounds and its children agree with it. -/
def WellFormed (digest : Digest) (t : Tree) : Prop := ∀ s ∈ t.subtrees, s.Linked digest

/-- The root of a well-formed tree is linked. -/
theorem WellFormed.linked (h : t.WellFormed digest) : t.Linked digest := h t t.self_mem_subtrees

/-- A child of a well-formed tree is well formed. -/
theorem WellFormed.child (h : t.WellFormed digest) (hc : c ∈ t.children) : c.WellFormed digest :=
  fun _ hs => h _ (mem_subtrees_of_child hc hs)

/-- Every node of a well-formed tree is the root of a well-formed tree. -/
theorem WellFormed.subtree (h : t.WellFormed digest) (hs : s ∈ t.subtrees) : s.WellFormed digest :=
  fun _ hr => h _ (mem_subtrees_trans hs hr)

/-- A tree is well formed when its root is linked and its children are well formed. -/
theorem wellFormed_iff : t.WellFormed digest ↔
    t.Linked digest ∧ ∀ c ∈ t.children, c.WellFormed digest := by
  refine ⟨fun h => ⟨h.linked, fun c hc => h.child hc⟩, fun h s hs => ?_⟩
  obtain rfl | ⟨c, hc, hs⟩ := mem_subtrees_cases hs
  · exact h.1
  · exact h.2 c hc s hs

end Tree

/-- The pages of the entries ascend, so that no page is mapped twice. -/
def Ascending (entries : List PageMapEntry) : Prop :=
  entries.Pairwise fun e f => e.pageNumber < f.pageNumber

/-- The table of some entries: later entries replace earlier ones. -/
def tableOf (entries : List PageMapEntry) (pages : PageTable) : PageTable :=
  entries.foldl (fun pages e => pages.insert e.pageNumber e) pages

/-- Flattening trees side by side notes their mappings in order, if each of them does. -/
theorem flattenAll_eq_of {children : List Tree}
    (h : ∀ c ∈ children, ∀ pages, flatten c pages = tableOf c.pages pages) (pages : PageTable) :
    flattenAll children pages = tableOf (children.flatMap Tree.pages) pages := by
  induction children generalizing pages with
  | nil => rfl
  | cons child children ih =>
    rw [flattenAll, h child List.mem_cons_self, List.flatMap_cons,
      ih fun c hc => h c (List.mem_cons_of_mem _ hc)]
    exact List.foldl_append.symm

/-- A tree is flattened by noting its pages in order. -/
theorem flatten_eq (t : Tree) (pages : PageTable) : flatten t pages = tableOf t.pages pages := by
  induction t using Tree.induction generalizing pages with
  | step t ih =>
    obtain ⟨reference, node, children, min, max⟩ := t
    cases node with
    | leaf entries => rfl
    | internal level branches =>
      rw [flatten, flattenAll_eq_of ih, Tree.pages, Tree.pagesAll_eq]

/-- What a table of ascending entries says of a page. -/
theorem getElem?_tableOf {entries : List PageMapEntry} {pages : PageTable}
    (hsorted : Ascending entries) (page : ℕ) :
    (tableOf entries pages)[page]? =
      ((entries.find? fun e => e.pageNumber = page).or pages[page]?) := by
  induction entries generalizing pages with
  | nil => rfl
  | cons e entries ih =>
    obtain ⟨hfirst, hsorted⟩ := List.pairwise_cons.mp hsorted
    have hrest := @ih (pages.insert e.pageNumber e) hsorted
    rw [tableOf, List.foldl_cons]
    refine hrest.trans ?_
    rw [List.find?_cons, Std.ExtTreeMap.getElem?_insert]
    by_cases hpage : e.pageNumber = page
    · have hnone : entries.find? (fun f => f.pageNumber = page) = none := by
        rw [List.find?_eq_none]
        intro f hf heq
        have hlt := hfirst f hf
        have heq := of_decide_eq_true heq
        omega
      rw [hnone]
      simp [hpage]
    · simp [hpage]

/-- Among ascending entries, an entry is found by its page. -/
theorem find?_eq_some_of_mem {entries : List PageMapEntry} {e : PageMapEntry}
    (hsorted : Ascending entries) (he : e ∈ entries) :
    (entries.find? fun f => f.pageNumber = e.pageNumber) = some e := by
  induction entries with
  | nil => cases he
  | cons f entries ih =>
    obtain ⟨hfirst, hsorted⟩ := List.pairwise_cons.mp hsorted
    rw [List.find?_cons]
    obtain rfl | he := List.mem_cons.mp he
    · simp
    · have hlt := hfirst e he
      have hne : ¬f.pageNumber = e.pageNumber := by omega
      rw [decide_eq_false hne]
      exact ih hsorted he

/-- A flattened tree finds exactly the entries of its pages. -/
theorem getElem?_flatten {t : Tree} {page : ℕ} {e : PageMapEntry}
    (hsorted : Ascending t.pages) :
    (flatten t ∅)[page]? = some e ↔ e ∈ t.pages ∧ e.pageNumber = page := by
  rw [flatten_eq, getElem?_tableOf hsorted, Std.ExtTreeMap.getElem?_empty, Option.or_none]
  constructor
  · intro h
    have hfound := List.find?_some h
    exact ⟨List.mem_of_find?_eq_some h, of_decide_eq_true hfound⟩
  · rintro ⟨he, rfl⟩
    exact find?_eq_some_of_mem hsorted he

section Keys

variable {t s : Tree} {ts : List Tree} {e : PageMapEntry}

/-- The pages of a tree below another are among its pages, in order. -/
theorem Tree.pages_sublist (h : t.WellFormed digest) (hs : s ∈ t.subtrees) :
    s.pages.Sublist t.pages := by
  induction t using Tree.induction with
  | step t ih =>
    obtain rfl | ⟨c, hc, hs⟩ := Tree.mem_subtrees_cases hs
    · exact List.Sublist.refl _
    · rw [(h.linked.of_child hc).1, List.flatMap_def]
      exact (ih c hc (h.child hc) hs).trans
        (List.sublist_flatten_of_mem (List.mem_map_of_mem hc))

/-- A linked tree has a first and a last page. -/
theorem Tree.Linked.exists_first (h : t.Linked digest) :
    ∃ e ∈ t.pages, e.pageNumber = t.min := by
  obtain ⟨e, he, hmin⟩ := Option.map_eq_some_iff.mp h.first
  exact ⟨e, List.mem_of_head? he, hmin⟩

/-- A linked tree maps its last page. -/
theorem Tree.Linked.exists_last (h : t.Linked digest) :
    ∃ e ∈ t.pages, e.pageNumber = t.max := by
  obtain ⟨e, he, hmax⟩ := Option.map_eq_some_iff.mp h.last
  exact ⟨e, List.mem_of_getLast? he, hmax⟩

/-- The pages of a linked tree are in its range when they ascend. -/
theorem Tree.Linked.mem_range (h : t.Linked digest) (hsorted : Ascending t.pages)
    (he : e ∈ t.pages) : t.min ≤ e.pageNumber ∧ e.pageNumber ≤ t.max := by
  obtain ⟨first, hfirst, hmin⟩ := Option.map_eq_some_iff.mp h.first
  obtain ⟨last, hlast, hmax⟩ := Option.map_eq_some_iff.mp h.last
  rw [← hmin, ← hmax]
  constructor
  · obtain ⟨rest, hrest⟩ := List.head?_eq_some_iff.mp hfirst
    rw [hrest] at hsorted he
    obtain rfl | he := List.mem_cons.mp he
    · exact Nat.le_refl _
    · exact Nat.le_of_lt ((List.pairwise_cons.mp hsorted).1 e he)
  · obtain ⟨rest, hrest⟩ := List.getLast?_eq_some_iff.mp hlast
    rw [hrest] at hsorted he
    obtain he | he := List.mem_append.mp he
    · have hlt := (List.pairwise_append.mp hsorted).2.2 e he last List.mem_cons_self
      exact Nat.le_of_lt hlt
    · obtain rfl := List.mem_singleton.mp he
      exact Nat.le_refl _

/-- The range of a tree below another is in its range. -/
theorem Tree.range_of_subtree (h : t.WellFormed digest) (hsorted : Ascending t.pages)
    (hs : s ∈ t.subtrees) : t.min ≤ s.min ∧ s.min ≤ s.max ∧ s.max ≤ t.max := by
  have hsub := Tree.pages_sublist h hs
  obtain ⟨first, hfirst, hmin⟩ := (h s hs).exists_first
  obtain ⟨last, hlast, hmax⟩ := (h s hs).exists_last
  have hleft := h.linked.mem_range hsorted (hsub.subset hfirst)
  have hright := h.linked.mem_range hsorted (hsub.subset hlast)
  have hown := (h s hs).mem_range (hsorted.sublist hsub) hfirst
  omega

/-- Trees side by side have ranges side by side when their pages ascend. -/
theorem pairwise_ranges (h : ∀ t ∈ ts, t.Linked digest)
    (hsorted : Ascending (ts.flatMap Tree.pages)) : ts.Pairwise fun a b => a.max < b.min := by
  obtain ⟨-, hpairs⟩ := List.pairwise_flatMap.mp hsorted
  refine hpairs.imp_of_mem fun {a b} ha hb hlt => ?_
  obtain ⟨last, hlast, hmax⟩ := (h a ha).exists_last
  obtain ⟨first, hfirst, hmin⟩ := (h b hb).exists_first
  rw [← hmax, ← hmin]
  exact hlt last hlast first hfirst

/-- A tree below another is this tree or of a lower level. -/
theorem Tree.level_of_subtree (h : t.WellFormed digest) (hs : s ∈ t.subtrees) :
    s = t ∨ s.node.level < t.node.level := by
  induction t using Tree.induction with
  | step t ih =>
    obtain rfl | ⟨c, hc, hs⟩ := Tree.mem_subtrees_cases hs
    · exact .inl rfl
    · have hlevel := (h.linked.of_child hc).2
      right
      obtain rfl | hlower := ih c hc (h.child hc) hs
      · omega
      · omega

/-- What a node is known by: its level and its last page. -/
def Tree.key (t : Tree) : ℕ × ℕ := (t.node.level, t.max)

/-- The nodes of a tree with ascending pages are known apart. -/
theorem Tree.nodup_keys (h : t.WellFormed digest) (hsorted : Ascending t.pages) :
    (t.subtrees.map Tree.key).Nodup := by
  induction t using Tree.induction with
  | step t ih =>
    have hchildren : Ascending (t.children.flatMap Tree.pages) := by
      cases hempty : t.children with
      | nil => exact List.Pairwise.nil
      | cons c children =>
        have hc : c ∈ t.children := hempty ▸ List.mem_cons_self
        rwa [← hempty, ← (h.linked.of_child hc).1]
    rw [Tree.subtrees_eq, List.map_cons, List.nodup_cons, List.map_flatMap, List.nodup_flatMap]
    refine ⟨fun hmem => ?_, fun c hc => ?_, ?_⟩
    · obtain ⟨c, hc, hkey⟩ := List.mem_flatMap.mp hmem
      obtain ⟨s, hs, hkey⟩ := List.mem_map.mp hkey
      have hsame : s.node.level = t.node.level := congrArg Prod.fst hkey
      have hchild := (h.linked.of_child hc).2
      obtain rfl | hlower := Tree.level_of_subtree (h.child hc) hs
      · omega
      · omega
    · exact ih c hc (h.child hc) ((List.pairwise_flatMap.mp hchildren).1 c hc)
    · refine (pairwise_ranges (fun c hc => (h.child hc).linked) hchildren).imp_of_mem ?_
      intro a b ha hb hlt key hkey hkey'
      obtain ⟨s, hs, rfl⟩ := List.mem_map.mp hkey
      obtain ⟨s', hs', heq⟩ := List.mem_map.mp hkey'
      have hmax : s'.max = s.max := congrArg Prod.snd heq
      have hleft :=
        Tree.range_of_subtree (h.child ha) ((List.pairwise_flatMap.mp hchildren).1 a ha) hs
      have hright :=
        Tree.range_of_subtree (h.child hb) ((List.pairwise_flatMap.mp hchildren).1 b hb) hs'
      omega

end Keys

section Reachable

/-- Noting what trees side by side reach is noting their objects in order, if each of them does. -/
theorem reachableAll_eq_of {children : List Tree}
    (h : ∀ c ∈ children, ∀ references, reachable c references =
      c.objects.foldlM addReference references) (references : References) :
    reachableAll children references =
      (children.flatMap Tree.objects).foldlM addReference references := by
  induction children generalizing references with
  | nil => rfl
  | cons child children ih =>
    rw [reachableAll, h child List.mem_cons_self, List.flatMap_cons, List.foldlM_append]
    exact bind_congr fun references => ih (fun c hc => h c (List.mem_cons_of_mem _ hc)) references

/-- What can be reached is found by noting the objects of a tree in order. -/
theorem reachable_eq {t : Tree} (h : t.WellFormed digest) (references : References) :
    reachable t references = t.objects.foldlM addReference references := by
  induction t using Tree.induction generalizing references with
  | step t ih =>
    have hbelow := reachableAll_eq_of fun c hc => ih c hc (h.child hc)
    have hlinked := h.linked
    rw [Tree.objects_eq]
    obtain ⟨reference, node, children, min, max⟩ := t
    cases node with
    | leaf entries =>
      obtain rfl : children = [] := hlinked.leaf entries rfl
      rw [reachable, List.foldlM_cons, Tree.packs, List.flatMap_nil, List.append_nil]
      exact bind_congr fun references => List.foldlM_map.symm
    | internal level branches =>
      rw [reachable, Tree.packs, List.nil_append, List.foldlM_cons]
      exact bind_congr fun references => hbelow references

/-- An object is noted when nothing else is noted at its location. -/
theorem addReference_eq_ok {references references' : References} {r : PageObjectReference}
    (h : addReference references r = .ok references') :
    references' = references.insert r.uri r ∧
      ∀ old, references[r.uri]? = some old → old = r := by
  unfold addReference at h
  split at h
  · cases h
  · next hsame =>
    cases h
    refine ⟨rfl, fun old hold => ?_⟩
    rw [hold] at hsame
    simpa using hsame

/-- References that have been noted one after the other are all found, and no others. -/
theorem foldlM_addReference {references references' : References} {rs : List PageObjectReference}
    (h : rs.foldlM addReference references = .ok references') :
    (∀ (uri : String) (r : PageObjectReference),
        references[uri]? = some r → references'[uri]? = some r) ∧
      (∀ r ∈ rs, references'[r.uri]? = some r) ∧
      ∀ (uri : String) (r : PageObjectReference), references'[uri]? = some r →
        references[uri]? = some r ∨ r ∈ rs ∧ r.uri = uri := by
  induction rs generalizing references with
  | nil =>
    cases h
    exact ⟨fun _ _ h => h, nofun, fun _ _ h => .inl h⟩
  | cons first rs ih =>
    rw [List.foldlM_cons] at h
    obtain ⟨middle, hfirst, h⟩ := bind_eq_ok.mp h
    obtain ⟨rfl, hsame⟩ := addReference_eq_ok hfirst
    obtain ⟨hkept, hnoted, hfound⟩ := ih h
    have hinsert : ∀ uri, (references.insert first.uri first)[uri]? =
        if first.uri = uri then some first else references[uri]? := by
      intro uri
      rw [Std.ExtTreeMap.getElem?_insert]
      simp only [Std.LawfulEqCmp.compare_eq_iff_eq]
    refine ⟨fun uri r hr => hkept uri r ?_, fun r hr => ?_, fun uri r hr => ?_⟩
    · rw [hinsert]
      split
      · next huri =>
        subst huri
        rw [hsame r hr]
      · exact hr
    · obtain rfl | hr := List.mem_cons.mp hr
      · refine hkept r.uri r ?_
        rw [hinsert, if_pos rfl]
      · exact hnoted r hr
    · obtain hr | ⟨hr, huri⟩ := hfound uri r hr
      · rw [hinsert] at hr
        split at hr
        · next huri =>
          cases hr
          exact .inr ⟨List.mem_cons_self, huri⟩
        · exact .inl hr
      · exact .inr ⟨List.mem_cons_of_mem _ hr, huri⟩

/-- What can be reached from a tree are its objects, by their locations. -/
theorem reachable_eq_ok {t : Tree} {references : References} (hwell : t.WellFormed digest)
    (h : reachable t ∅ = .ok references) {uri : String} {r : PageObjectReference} :
    references[uri]? = some r ↔ r ∈ t.objects ∧ r.uri = uri := by
  rw [reachable_eq hwell] at h
  obtain ⟨-, hnoted, hfound⟩ := foldlM_addReference h
  constructor
  · intro hr
    obtain hr | hr := hfound uri r hr
    · rw [Std.ExtTreeMap.getElem?_empty] at hr
      cases hr
    · exact hr
  · rintro ⟨hr, rfl⟩
    exact hnoted r hr

end Reachable

section Rows

variable {ts : List Tree} {t : Tree}

/-- The first page of trees side by side is that of the first tree. -/
theorem first_of_row (h : t.Linked digest) (hhead : ts.head? = some t) :
    (ts.flatMap Tree.pages).head?.map PageMapEntry.pageNumber = some t.min := by
  obtain ⟨rest, rfl⟩ := List.head?_eq_some_iff.mp hhead
  obtain ⟨e, he, hmin⟩ := Option.map_eq_some_iff.mp h.first
  obtain ⟨entries, hentries⟩ := List.head?_eq_some_iff.mp he
  rw [List.flatMap_cons, hentries, List.cons_append, List.head?_cons, Option.map_some, hmin]

/-- The last page of trees side by side is that of the last tree. -/
theorem last_of_row (h : t.Linked digest) (hlast : ts.getLast? = some t) :
    (ts.flatMap Tree.pages).getLast?.map PageMapEntry.pageNumber = some t.max := by
  obtain ⟨rest, rfl⟩ := List.getLast?_eq_some_iff.mp hlast
  obtain ⟨e, he, hmax⟩ := Option.map_eq_some_iff.mp h.last
  obtain ⟨entries, hentries⟩ := List.getLast?_eq_some_iff.mp he
  rw [List.flatMap_append, List.flatMap_singleton, hentries, ← List.append_assoc,
    List.getLast?_concat, Option.map_some, hmax]

end Rows

end Otmp.Physical
