import Otmp.Runtime.PageTreeShape

/-!
# Page trees are read back

A tree that is read is well formed, its nodes are stored where they are named, and its pages ascend
between its bounds. Conversely such a tree is read from any store that holds its nodes, when no two
of them have one location.
-/

namespace Otmp.Physical

open Foundation
open CheckpointTree (liftFault)

variable {digest : Digest} {store : String → Except RuntimeError Bytes}

section Valid

variable {entries : List PageMapEntry} {branches : List PageMapBranch} {level previous page : ℕ}
  {r : PageObjectReference}

/-- A page is accepted behind a smaller one, with a reference that is not empty. -/
theorem checkPage_eq_ok : checkPage previous page r = .ok () ↔ previous < page ∧ r.length ≠ 0 := by
  rw [checkPage]
  split
  · next h =>
    refine ⟨nofun, fun ⟨hlt, hne⟩ => ?_⟩
    omega
  · next h =>
    simp only [true_iff]
    omega

/-- The entries of a valid leaf ascend. -/
theorem ascending_of_validateAfter
    (h : PageMapEntry.validateAfter previous entries = .ok ()) :
    Ascending entries ∧ ∀ e ∈ entries, previous < e.pageNumber := by
  induction entries generalizing previous with
  | nil => exact ⟨List.Pairwise.nil, nofun⟩
  | cons e entries ih =>
    rw [PageMapEntry.validateAfter, check_eq_ok, checkPage_eq_ok, ite_error_eq_ok] at h
    obtain ⟨⟨hlt, -⟩, -, h⟩ := h
    obtain ⟨hsorted, hafter⟩ := ih h
    refine ⟨List.pairwise_cons.mpr ⟨hafter, hsorted⟩, List.forall_mem_cons.mpr ⟨hlt, ?_⟩⟩
    intro f hf
    have hmore := hafter f hf
    omega

/-- A valid leaf has entries, which ascend from the first page on. -/
theorem validate_leaf (h : (PageMapNode.leaf entries).validate = .ok ()) :
    entries ≠ [] ∧ Ascending entries ∧ ∀ e ∈ entries, 0 < e.pageNumber := by
  rw [PageMapNode.validate, ite_error_eq_ok, List.isEmpty_iff] at h
  exact ⟨h.1, ascending_of_validateAfter h.2⟩

/-- A valid internal node has children and is not on the lowest level. -/
theorem validate_internal (h : (PageMapNode.internal level branches).validate = .ok ()) :
    level ≠ 0 ∧ branches ≠ [] := by
  rw [PageMapNode.validate, ite_error_eq_ok] at h
  simpa using h.1

end Valid

/-- Unwrapping succeeds with the value that is there. -/
theorem unwrap_eq_ok {ε α : Type} {a : Option α} {v : α} :
    (unwrap a : Except (Fault ε) α) = .ok v ↔ a = some v := by
  cases a <;> simp [unwrap]

/-- Lifting an error into the runtime does not change what succeeds. -/
theorem liftFault_eq_ok {α : Type} {x : Except (Fault ProtocolError) α} {a : α} :
    liftFault x = .ok a ↔ x = .ok a := by
  obtain (e | _) | a := x <;> simp [liftFault]

/-- What is read is what the reference names. -/
theorem verifiedRead_eq_ok {r : PageObjectReference} {mediaType : String} {bytes : Bytes} :
    verifiedRead digest store ⟨r.uri, r.sha256, some r.length, some mediaType⟩ = .ok bytes ↔
      store r.uri = .ok bytes ∧ digest bytes = r.sha256 ∧ r.length = bytes.length := by
  rw [verifiedRead, bind_eq_ok]
  constructor
  · rintro ⟨read, hread, h⟩
    rw [ite_error_eq_ok] at h
    obtain ⟨hgood, h⟩ := h
    cases h
    simpa [objectHash, hread] using hgood
  · rintro ⟨hread, hhash, hlength⟩
    refine ⟨bytes, hread, ?_⟩
    rw [ite_error_eq_ok]
    simp [objectHash, hhash, hlength]

/-- The nodes of a tree are stored where they are named. -/
def Tree.StoredIn (store : String → Except RuntimeError Bytes) (t : Tree) : Prop :=
  ∀ s ∈ t.subtrees, store s.reference.uri = .ok s.node.encode

/-- What holds of a tree of a level that is read between two bounds. -/
structure Loads (digest : Digest) (store : String → Except RuntimeError Bytes) (level : ℕ)
    (lower upper : ℕ) (t : Tree) : Prop where
  wellFormed : t.WellFormed digest
  level : t.node.level = level
  ascending : Ascending t.pages
  stored : t.StoredIn store
  lower : lower < t.min
  upper : t.max ≤ upper

section Sound

variable {level lower upper previous : ℕ} {load : LoadChild} {entries : List PageMapBranch}
  {children : List Tree} {seen seen' : List String} {t : Tree} {reference : PageObjectReference}
  {min max : ℕ} {node : PageMapNode}

/-- Children that are read are those of the branches, and their pages ascend. -/
theorem loadChildren_sound
    (hload : ∀ e ∈ entries, ∀ previous seen c seen', load e previous seen = .ok (c, seen') →
      c.reference = e.child ∧ Loads digest store level previous e.maxPage c)
    (h : loadChildren load upper previous entries seen = .ok (children, seen')) :
    children.map Tree.branch = entries ∧
      (∀ c ∈ children, c.WellFormed digest ∧ c.node.level = level ∧ c.StoredIn store) ∧
      Ascending (children.flatMap Tree.pages) ∧
      ∀ e ∈ children.flatMap Tree.pages, previous < e.pageNumber := by
  induction entries generalizing previous seen children with
  | nil =>
    cases h
    exact ⟨rfl, nofun, List.Pairwise.nil, nofun⟩
  | cons e entries ih =>
    rw [loadChildren] at h
    obtain ⟨_, hbounds, h⟩ := bind_eq_ok.mp h
    obtain ⟨⟨c, middle⟩, hchild, h⟩ := bind_eq_ok.mp h
    obtain ⟨_, hmax, h⟩ := bind_eq_ok.mp h
    obtain ⟨⟨others, last⟩, hothers, h⟩ := bind_eq_ok.mp h
    cases h
    have hmax : c.max = e.maxPage := not_not.mp (refuseIf_eq_ok.mp hmax)
    have hbounds := refuseIf_eq_ok.mp hbounds
    obtain ⟨hreference, hc⟩ := hload e List.mem_cons_self _ _ _ _ hchild
    obtain ⟨hbranches, hall, hsorted, hafter⟩ :=
      ih (fun e he => hload e (List.mem_cons_of_mem _ he)) hothers
    have hrange := fun f hf => hc.wellFormed.linked.mem_range (e := f) hc.ascending hf
    have hlower := hc.lower
    refine ⟨?_, List.forall_mem_cons.mpr ⟨⟨hc.wellFormed, hc.level, hc.stored⟩, hall⟩, ?_, ?_⟩
    · rw [List.map_cons, hbranches, Tree.branch, hmax, hreference]
    · rw [List.flatMap_cons]
      refine List.pairwise_append.mpr ⟨hc.ascending, hsorted, fun f hf g hg => ?_⟩
      have hleft := hrange f hf
      have hright := hafter g hg
      omega
    · intro f hf
      rw [List.flatMap_cons] at hf
      obtain hf | hf := List.mem_append.mp hf
      · have hleft := hrange f hf
        omega
      · have hright := hafter f hf
        omega

/-- A node that is read is the root of a tree with the bounds it is read between. -/
theorem loadNodeWith_sound (hreference : reference.InRange)
    (hload : ∀ e previous seen c seen', e.child.InRange → load e previous seen = .ok (c, seen') →
      c.reference = e.child ∧ ∃ below, level = below + 1 ∧
        Loads digest store below previous e.maxPage c)
    (h : loadNodeWith digest store level load reference lower upper seen = .ok (t, seen')) :
    t.reference = reference ∧ Loads digest store level lower upper t := by
  rw [loadNodeWith] at h
  obtain ⟨_, -, h⟩ := bind_eq_ok.mp h
  obtain ⟨bytes, hread, h⟩ := bind_eq_ok.mp h
  obtain ⟨node, hnode, h⟩ := bind_eq_ok.mp h
  obtain ⟨_, hlevel, h⟩ := bind_eq_ok.mp h
  obtain ⟨⟨children, min, max, after⟩, hcontents, h⟩ := bind_eq_ok.mp h
  obtain ⟨_, hbounds, h⟩ := bind_eq_ok.mp h
  cases h
  obtain ⟨hstored, hhash, hlength⟩ := verifiedRead_eq_ok.mp (mapError_ok_iff.mp hread)
  obtain ⟨hrange, hvalid, hsmall, rfl⟩ := decodePageMap_eq_ok.mp (liftFault_eq_ok.mp hnode)
  have hlevel : node.level = level := not_not.mp (refuseIf_eq_ok.mp hlevel)
  obtain ⟨hlower, hupper⟩ := not_or.mp (refuseIf_eq_ok.mp hbounds)
  have hlower := not_le.mp hlower
  have hupper := not_lt.mp hupper
  refine ⟨rfl, ?_⟩
  cases node with
  | leaf entries =>
    obtain ⟨first, hfirst, hcontents⟩ := bind_eq_ok.mp hcontents
    obtain ⟨last, hlast, hcontents⟩ := bind_eq_ok.mp hcontents
    cases hcontents
    have hfirst := unwrap_eq_ok.mp hfirst
    have hlast := unwrap_eq_ok.mp hlast
    obtain ⟨-, hsorted, -⟩ := validate_leaf hvalid
    have hlinked : Tree.Linked digest ⟨reference, .leaf entries, [], first.pageNumber,
        last.pageNumber⟩ :=
      ⟨hreference, hvalid, hrange, hsmall, hhash.symm, hlength, fun _ _ => rfl, nofun,
        congrArg (Option.map _) hfirst, congrArg (Option.map _) hlast⟩
    refine ⟨Tree.wellFormed_iff.mpr ⟨hlinked, nofun⟩, hlevel, hsorted, ?_, hlower, hupper⟩
    intro s hs
    obtain rfl := List.mem_singleton.mp hs
    exact hstored
  | internal own branches =>
    obtain ⟨⟨below, seen''⟩, hchildren, hcontents⟩ := bind_eq_ok.mp hcontents
    obtain ⟨first, hfirst, hcontents⟩ := bind_eq_ok.mp hcontents
    obtain ⟨last, hlast, hcontents⟩ := bind_eq_ok.mp hcontents
    cases hcontents
    have hfirst := unwrap_eq_ok.mp hfirst
    have hlast := unwrap_eq_ok.mp hlast
    obtain ⟨habove, -⟩ := validate_internal hvalid
    change own = level at hlevel
    obtain ⟨height, rfl⟩ := Nat.exists_eq_succ_of_ne_zero habove
    subst hlevel
    have hbelow : ∀ e ∈ branches, ∀ previous seen c seen', load e previous seen = .ok (c, seen') →
        c.reference = e.child ∧ Loads digest store height previous e.maxPage c := by
      intro e he previous seen c seen' hc
      obtain ⟨hsame, below, hheight, hloads⟩ :=
        hload e previous seen c seen' (hrange.2.2 e he).child hc
      obtain rfl := Nat.succ.inj hheight
      exact ⟨hsame, hloads⟩
    obtain ⟨hbranches, hall, hsorted, hafter⟩ := loadChildren_sound hbelow hchildren
    have hlinked : Tree.Linked digest ⟨reference, .internal (height + 1) branches, children,
        first.min, last.max⟩ := by
      refine ⟨hreference, hvalid, hrange, hsmall, hhash.symm, hlength, nofun, ?_, ?_, ?_⟩
      · rintro level branches' heq
        cases heq
        refine ⟨hbranches.symm, fun c hc => ?_⟩
        rw [(hall c hc).2.1]
      · have hmin := first_of_row (hall first (List.mem_of_head? hfirst)).1.linked hfirst
        rw [Tree.pages_internal rfl]
        exact hmin
      · have hmax := last_of_row (hall last (List.mem_of_getLast? hlast)).1.linked hlast
        rw [Tree.pages_internal rfl]
        exact hmax
    refine ⟨Tree.wellFormed_iff.mpr ⟨hlinked, fun c hc => (hall c hc).1⟩, rfl, ?_, ?_, hlower,
      hupper⟩
    · rwa [Tree.pages_internal rfl]
    · intro s hs
      obtain rfl | ⟨c, hc, hs⟩ := Tree.mem_subtrees_cases hs
      · exact hstored
      · exact (hall c hc).2.2 s hs

/-- A tree that is read is well formed and stored, and its pages ascend between the bounds. -/
theorem loadTree_sound (hreference : reference.InRange)
    (h : loadTree digest store level reference lower upper seen = .ok (t, seen')) :
    t.reference = reference ∧ Loads digest store level lower upper t := by
  induction level generalizing reference lower upper seen seen' t with
  | zero => exact loadNodeWith_sound hreference (fun _ _ _ _ _ _ hc => by cases hc) h
  | succ level ih =>
    refine loadNodeWith_sound hreference (fun e previous seen c seen' he hc => ?_) h
    obtain ⟨hsame, hloads⟩ := ih he hc
    exact ⟨hsame, level, rfl, hloads⟩

end Sound

/-- The locations of the nodes of a tree, its own first. -/
def Tree.uris (t : Tree) : List String := t.subtrees.map fun s => s.reference.uri

/-- The locations of a tree: its own and those of its children. -/
theorem Tree.uris_eq (t : Tree) : t.uris = t.reference.uri :: t.children.flatMap Tree.uris := by
  rw [uris, subtrees_eq, List.map_cons, List.map_flatMap]
  rfl

section Complete

variable {level lower upper previous : ℕ} {load : LoadChild} {children : List Tree}
  {seen : List String} {t : Tree}

/-- A child is read back, and only its own locations are noted. -/
def ReadsBack (load : LoadChild) (c : Tree) : Prop :=
  ∀ previous seen, previous < c.min → (∀ uri ∈ c.uris, uri ∉ seen) →
    ∃ seen', load c.branch previous seen = .ok (c, seen') ∧
      ∀ uri ∈ seen', uri ∈ seen ∨ uri ∈ c.uris

/-- Children side by side are read back one after the other. -/
theorem loadChildren_complete (hload : ∀ c ∈ children, ReadsBack load c)
    (hlinked : ∀ c ∈ children, c.min ≤ c.max ∧ c.max ≤ upper)
    (hranges : children.Pairwise fun a b => a.max < b.min)
    (hprevious : ∀ c ∈ children, previous < c.min) (hnodup : (children.flatMap Tree.uris).Nodup)
    (hseen : ∀ uri ∈ children.flatMap Tree.uris, uri ∉ seen) :
    ∃ seen', loadChildren load upper previous (children.map Tree.branch) seen =
        .ok (children, seen') ∧
      ∀ uri ∈ seen', uri ∈ seen ∨ uri ∈ children.flatMap Tree.uris := by
  induction children generalizing previous seen with
  | nil => exact ⟨seen, rfl, fun uri huri => .inl huri⟩
  | cons c children ih =>
    rw [List.flatMap_cons] at hnodup hseen
    obtain ⟨hbehind, hranges⟩ := List.pairwise_cons.mp hranges
    obtain ⟨⟨hle, hupper⟩, hlinked⟩ := List.forall_mem_cons.mp hlinked
    obtain ⟨hlower, -⟩ := List.forall_mem_cons.mp hprevious
    obtain ⟨hown, hothers⟩ := List.forall_mem_cons.mp hload
    obtain ⟨-, hnodup', hapart⟩ := List.nodup_append'.mp hnodup
    obtain ⟨middle, hchild, hmiddle⟩ := hown previous seen hlower
      fun uri huri => hseen uri (List.mem_append_left _ huri)
    obtain ⟨last, hrest, hlast⟩ := @ih c.max middle hothers hlinked hranges hbehind hnodup'
      fun uri huri hmem => by
        obtain hold | hnew := hmiddle uri hmem
        · exact hseen uri (List.mem_append_right _ huri) hold
        · exact hapart hnew huri
    refine ⟨last, ?_, fun uri huri => ?_⟩
    · have hbounds : ¬(c.branch.maxPage ≤ previous ∨ c.branch.maxPage > upper) := by
        change ¬(c.max ≤ previous ∨ c.max > upper)
        omega
      have hsame : ¬c.max ≠ c.branch.maxPage := not_not.mpr rfl
      rw [List.map_cons, loadChildren, passed_bind hbounds, ok_bind hchild]
      refine (passed_bind hsame).trans ?_
      exact ok_bind hrest
    · rw [List.flatMap_cons, List.mem_append]
      obtain huri | hnew := hlast uri huri
      · obtain hold | hnew := hmiddle uri huri
        · exact .inl hold
        · exact .inr (.inl hnew)
      · exact .inr (.inr hnew)

/-- The contents of a stored node are read back when its children are. -/
theorem loadContents_complete (h : Loads digest store level lower upper t)
    (hload : ∀ c ∈ t.children, ReadsBack load c) (hnodup : (t.children.flatMap Tree.uris).Nodup)
    (hseen : ∀ uri ∈ t.children.flatMap Tree.uris, uri ∉ seen) :
    ∃ seen', loadContents load lower upper seen t.node =
        .ok (t.children, t.min, t.max, seen') ∧
      ∀ uri ∈ seen', uri ∈ seen ∨ uri ∈ t.children.flatMap Tree.uris := by
  have hlinked := h.wellFormed.linked
  cases hnode : t.node with
  | leaf entries =>
    have hmin := hlinked.first
    have hmax := hlinked.last
    rw [Tree.pages_leaf hnode] at hmin hmax
    obtain ⟨first, hfirst, hmin⟩ := Option.map_eq_some_iff.mp hmin
    obtain ⟨last, hlast, hmax⟩ := Option.map_eq_some_iff.mp hmax
    refine ⟨seen, ?_, fun uri huri => .inl huri⟩
    rw [loadContents, ok_bind (unwrap_eq_ok.mpr hfirst), ok_bind (unwrap_eq_ok.mpr hlast),
      hlinked.leaf entries hnode, ← hmin, ← hmax]
    rfl
  | internal own branches =>
    obtain ⟨rfl, -⟩ := hlinked.internal own branches hnode
    have hvalid := hlinked.valid
    rw [hnode] at hvalid
    have hne : t.children ≠ [] := fun hnil => (validate_internal hvalid).2 (by rw [hnil]; rfl)
    have hpages := Tree.pages_internal hnode
    have hsorted := h.ascending
    rw [hpages] at hsorted
    have hrange : ∀ c ∈ t.children, t.min ≤ c.min ∧ c.min ≤ c.max ∧ c.max ≤ t.max :=
      fun c hc => Tree.range_of_subtree h.wellFormed h.ascending
        (Tree.mem_subtrees_of_child hc c.self_mem_subtrees)
    have hlower := h.lower
    have hupper := h.upper
    obtain ⟨seen', hchildren, hnew⟩ := @loadChildren_complete upper lower load t.children seen hload
      (fun c hc => ⟨(hrange c hc).2.1, (hrange c hc).2.2.trans hupper⟩)
      (pairwise_ranges (fun c hc => (h.wellFormed.child hc).linked) hsorted)
      (fun c hc => hlower.trans_le (hrange c hc).1) hnodup hseen
    refine ⟨seen', ?_, hnew⟩
    have hfirst := List.head?_eq_some_head hne
    have hlast := List.getLast?_eq_some_getLast hne
    have hmin := first_of_row (h.wellFormed.child (List.head_mem hne)).linked hfirst
    have hmax := last_of_row (h.wellFormed.child (List.getLast_mem hne)).linked hlast
    rw [← hpages, hlinked.first] at hmin
    rw [← hpages, hlinked.last] at hmax
    rw [loadContents, ok_bind hchildren]
    refine (ok_bind (unwrap_eq_ok.mpr hfirst)).trans ?_
    refine (ok_bind (unwrap_eq_ok.mpr hlast)).trans ?_
    rw [← Option.some.inj hmin, ← Option.some.inj hmax]
    rfl

/-- A tree is made of its five parts. -/
theorem Tree.eta (t : Tree) : (⟨t.reference, t.node, t.children, t.min, t.max⟩ : Tree) = t := by
  cases t
  rfl

/-- The root of a stored tree is read back when its children are. -/
theorem loadNodeWith_complete (h : Loads digest store level lower upper t) (hheight : level ≤ 64)
    (hload : ∀ c ∈ t.children, ReadsBack load c) (hnodup : t.uris.Nodup)
    (hseen : ∀ uri ∈ t.uris, uri ∉ seen) :
    ∃ seen', loadNodeWith digest store level load t.reference lower upper seen = .ok (t, seen') ∧
      ∀ uri ∈ seen', uri ∈ seen ∨ uri ∈ t.uris := by
  have hlinked := h.wellFormed.linked
  rw [t.uris_eq] at hnodup hseen
  obtain ⟨hown, hnodup⟩ := List.nodup_cons.mp hnodup
  obtain ⟨hunseen, hothers⟩ := List.forall_mem_cons.mp hseen
  have hgood : ¬(level > 64 ∨ t.reference.uri ∈ seen ∨ t.reference.length > maxPageMapBytes) := by
    have hsmall := hlinked.small
    have hlength := hlinked.length
    simp only [not_or, not_lt]
    exact ⟨hheight, hunseen, by omega⟩
  have hread : verifiedRead digest store ⟨t.reference.uri, t.reference.sha256,
      some t.reference.length, some pageMapMediaType⟩ = .ok t.node.encode :=
    verifiedRead_eq_ok.mpr ⟨h.stored t t.self_mem_subtrees, hlinked.sha256.symm, hlinked.length⟩
  have hnode : decodePageMap t.node.encode = .ok t.node :=
    decodePageMap_eq_ok.mpr ⟨hlinked.inRange, hlinked.valid, hlinked.small, rfl⟩
  have hlevel : ¬t.node.level ≠ level := not_not.mpr h.level
  have hapart : ∀ uri ∈ t.children.flatMap Tree.uris, uri ∉ t.reference.uri :: seen := by
    intro uri huri hmem
    obtain rfl | hmem := List.mem_cons.mp hmem
    · exact hown huri
    · exact hothers uri huri hmem
  obtain ⟨seen', hcontents, hnew⟩ := loadContents_complete h hload hnodup hapart
  have hbounds : ¬(t.min ≤ lower ∨ t.max > upper) := by
    have hlower := h.lower
    have hupper := h.upper
    omega
  refine ⟨seen', ?_, fun uri huri => ?_⟩
  · rw [loadNodeWith, passed_bind hgood, ok_bind (mapError_ok_iff.mpr hread),
      ok_bind (liftFault_eq_ok.mpr hnode), passed_bind hlevel]
    refine (ok_bind hcontents).trans ?_
    dsimp only
    rw [passed_bind hbounds, t.eta]
    rfl
  · rw [t.uris_eq, List.mem_cons]
    obtain huri | hbelow := hnew uri huri
    · obtain rfl | hold := List.mem_cons.mp huri
      · exact .inr (.inl rfl)
      · exact .inl hold
    · exact .inr (.inr hbelow)

/-- A stored tree whose nodes have different locations is read back. -/
theorem loadTree_complete (h : Loads digest store level lower upper t) (hheight : level ≤ 64)
    (hnodup : t.uris.Nodup) (hseen : ∀ uri ∈ t.uris, uri ∉ seen) :
    ∃ seen', loadTree digest store level t.reference lower upper seen = .ok (t, seen') ∧
      ∀ uri ∈ seen', uri ∈ seen ∨ uri ∈ t.uris := by
  induction level generalizing t lower upper seen with
  | zero =>
    refine loadNodeWith_complete h hheight (fun c hc => ?_) hnodup hseen
    have hlevel := (h.wellFormed.linked.of_child hc).2
    rw [h.level] at hlevel
    cases hlevel
  | succ level ih =>
    refine loadNodeWith_complete h hheight (fun c hc previous seen hprevious hseen => ?_) hnodup
      hseen
    have hlevel := (h.wellFormed.linked.of_child hc).2
    rw [h.level] at hlevel
    have hown := Tree.mem_subtrees_of_child hc c.self_mem_subtrees
    have hloads : Loads digest store level previous c.max c :=
      ⟨h.wellFormed.child hc, Nat.succ.inj hlevel,
        h.ascending.sublist (Tree.pages_sublist h.wellFormed hown),
        fun s hs => h.stored s (Tree.mem_subtrees_of_child hc hs), hprevious, Nat.le_refl _⟩
    refine ih hloads (by omega) ?_ hseen
    rw [t.uris_eq, List.nodup_cons] at hnodup
    exact (List.nodup_flatMap.mp hnodup.2).1 c hc

end Complete

end Otmp.Physical
