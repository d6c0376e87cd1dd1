import Mathlib.Data.List.Nodup
import Otmp.Runtime.CheckpointIndexTree

/-!
# Checkpoint indexes are complete

An index that is built for a checkpoint has one root, over a tree of all pages. Every object that is
made is a valid node of that tree, and no two of them are stored at one location when the hash tells
their encodings apart. The check of a whole index accepts it, and the path from its root to any page
ends at the hash of that page.
-/

namespace Otmp.CheckpointTree

open Foundation Cbor
open Physical (Artifact)

variable {digest : Digest} {objects : List Artifact} {hashes : List Sha256} {level first : ℕ}
  {r : PageObjectReference}

/-- What a node is known by among the nodes of one index: its level and its first page. -/
def nodeKey (node : CheckpointIndexNode) : ℕ × ℕ := (node.level, node.firstPage)

/-- The node is reached from a reference: it is referred to itself, or it is reached from a child of
the node that is. -/
inductive Reaches (digest : Digest) (nodes : List CheckpointIndexNode)
    (node : CheckpointIndexNode) : PageObjectReference → Prop
  | here : node ∈ nodes → Reaches digest nodes node (refOf digest node)
  | child {level : ℕ} {entries : List CheckpointIndexChild} {e : CheckpointIndexChild} :
      .internal level entries ∈ nodes → e ∈ entries → Reaches digest nodes node e.child →
      Reaches digest nodes node (refOf digest (.internal level entries))

/-- More nodes reach what fewer do, as paths stay paths. -/
theorem Reaches.mono {nodes nodes' : List CheckpointIndexNode} {node : CheckpointIndexNode}
    (h : Reaches digest nodes node r) (hsub : nodes ⊆ nodes') : Reaches digest nodes' node r := by
  induction h with
  | here hmem => exact .here (hsub hmem)
  | child hmem he _ ih => exact .child (hsub hmem) he ih

/-- The hashes of the pages of a node, among those of all pages. -/
def pagesOf (hashes : List Sha256) (node : CheckpointIndexNode) : List Sha256 :=
  (hashes.drop (node.firstPage - 1)).take node.pages

/-- A node with a tree over its own pages. -/
structure Rooted (digest : Digest) (objects : List Artifact) (hashes : List Sha256)
    (node : CheckpointIndexNode) : Prop extends Good node where
  first : 0 < node.firstPage
  last : node.firstPage + node.pages ≤ 1 + hashes.length
  tree : IsTree digest objects node.level node.firstPage (pagesOf hashes node) (refOf digest node)

/-- A node stays rooted when more objects are stored. -/
theorem Rooted.mono {node : CheckpointIndexNode} (h : Rooted digest objects hashes node)
    {objects' : List Artifact} (hsub : objects ⊆ objects') : Rooted digest objects' hashes node :=
  ⟨h.toGood, h.first, h.last, h.tree.mono hsub⟩

/-- The pages of a rooted node lie within the checkpoint, so there are as many hashes as pages. -/
theorem Rooted.length_pagesOf {node : CheckpointIndexNode}
    (h : Rooted digest objects hashes node) : (pagesOf hashes node).length = node.pages := by
  have hfirst := h.first
  have hlast := h.last
  rw [pagesOf, List.length_take, List.length_drop]
  omega

/-- Nodes that cover all pages have trees over their own pages. -/
theorem rooted_of_cover {nodes : List CheckpointIndexNode}
    (hgood : ∀ node ∈ nodes, Good node ∧ node.level = level)
    (h : Cover (IsTree digest objects level) 1 ((nodes.map (made digest)).map Prod.fst) hashes) :
    ∀ node ∈ nodes, Rooted digest objects hashes node := by
  intro node hnode
  have hpart : (made digest node).1 ∈ (nodes.map (made digest)).map Prod.fst :=
    List.mem_map_of_mem (List.mem_map_of_mem hnode)
  obtain ⟨own, htree, hcount, hfirst, hlast, hslice⟩ := h.exists_tree hpart
  have hpages : node.pages = own.length := hcount
  refine ⟨(hgood node hnode).1, hfirst, hpages ▸ hlast, ?_⟩
  rw [pagesOf, (hgood node hnode).2, hpages]
  exact hslice ▸ htree

/-- What holds of the levels that are built over the pages of a checkpoint. -/
structure Sound (digest : Digest) (hashes : List Sha256) (s : Levels) : Prop where
  cover : Cover (IsTree digest s.artifacts s.height) 1 s.current hashes
  nonempty : s.current ≠ []
  height : s.current.length * 2 ^ s.height ≤ hashes.length
  nodes : ∃ nodes : List CheckpointIndexNode, s.artifacts = (nodes.map (made digest)).map Prod.snd ∧
    (∀ node ∈ nodes, Rooted digest s.artifacts hashes node ∧ node.level ≤ s.height ∧
      ∃ p ∈ s.current, Reaches digest nodes node p.reference) ∧ (nodes.map nodeKey).Nodup

/-- The keys of nodes side by side are different. -/
theorem nodup_nodeKey {tree : ℕ → List Sha256 → PageObjectReference → Prop}
    {nodes : List CheckpointIndexNode}
    (h : Cover tree first ((nodes.map (made digest)).map Prod.fst) hashes) :
    (nodes.map nodeKey).Nodup := by
  have hsorted := h.pairwise.2
  rw [List.map_map, List.map_map] at hsorted
  refine List.Nodup.of_map Prod.snd ?_
  rw [List.map_map]
  exact hsorted.imp Nat.ne_of_lt

section Loop

variable {s : Levels}

/-- The height of the levels is small. -/
theorem Sound.height_lt (h : Sound digest hashes s) (hfits : 1 + hashes.length < wordSize) :
    s.height < 64 := by
  have hpos := List.length_pos_iff.mpr h.nonempty
  have hle := h.height
  have hpow : 2 ^ s.height ≤ s.current.length * 2 ^ s.height := Nat.le_mul_of_pos_left _ hpos
  by_contra hlarge
  have hword : 2 ^ 64 ≤ 2 ^ s.height := Nat.pow_le_pow_right (by decide) (by omega)
  have hvalue : (2 : ℕ) ^ 64 = wordSize := by decide
  omega

/-- A level that is added keeps what holds of the levels, and has fewer nodes. -/
theorem Sound.addLevel (h : Sound digest hashes s) (hfits : 1 + hashes.length < wordSize)
    (hmany : 1 < s.current.length) : ∃ s', addLevel digest s = .ok (some s') ∧
      Sound digest hashes s' ∧ s'.current.length < s.current.length := by
  have hheight := h.height_lt hfits
  obtain ⟨made', hmade, hcount, hgood, hparents, hcover⟩ :=
    nodes_eq_ok h.cover Nat.one_pos hfits (by omega)
  have hcover := hcover _ (List.subset_append_left s.artifacts _)
    (List.subset_append_right s.artifacts _)
  have hlength : made'.length = (s.current.length + 127) / 128 := by
    rw [hcount, length_chunks (by decide)]
    rfl
  refine ⟨⟨s.height + 1, (made'.map (made digest)).map Prod.fst,
    s.artifacts ++ (made'.map (made digest)).map Prod.snd⟩, ?_, ⟨?_, ?_, ?_, ?_⟩, ?_⟩
  · rw [CheckpointTree.addLevel, if_pos hmany, if_pos (by omega), ok_bind hmade]
    rfl
  · exact hcover
  · intro hnil
    have hzero := congrArg List.length hnil
    simp only [List.length_map, List.length_nil] at hzero
    omega
  · have hle := h.height
    have hhalf : made'.length * 2 ≤ s.current.length := by omega
    simp only [List.length_map]
    calc made'.length * 2 ^ (s.height + 1) = made'.length * 2 * 2 ^ s.height := by
          rw [Nat.pow_succ, Nat.mul_comm (2 ^ s.height), Nat.mul_assoc]
      _ ≤ s.current.length * 2 ^ s.height := Nat.mul_le_mul_right _ hhalf
      _ ≤ hashes.length := hle
  · obtain ⟨nodes, hartifacts, hnodes, hnodup⟩ := h.nodes
    refine ⟨nodes ++ made', ?_, ?_, ?_⟩
    · rw [List.map_append, List.map_append, hartifacts]
    · intro node hnode
      obtain hnode | hnode := List.mem_append.mp hnode
      · obtain ⟨hrooted, hlevel, p, hp, hreaches⟩ := hnodes node hnode
        obtain ⟨entries, hentries, hmem⟩ := hparents p hp
        refine ⟨hrooted.mono (List.subset_append_left _ _), Nat.le_succ_of_le hlevel, _,
          List.mem_map_of_mem (List.mem_map_of_mem hentries), ?_⟩
        exact .child (List.mem_append_right _ hentries) hmem
          (hreaches.mono (List.subset_append_left _ _))
      · exact ⟨rooted_of_cover hgood hcover node hnode, (hgood node hnode).2.le, _,
          List.mem_map_of_mem (List.mem_map_of_mem hnode), .here (List.mem_append_right _ hnode)⟩
    · have hnew := nodup_nodeKey hcover
      rw [List.map_append]
      refine List.nodup_append'.mpr ⟨hnodup, hnew, fun key hkey hkey' => ?_⟩
      obtain ⟨node, hnode, rfl⟩ := List.mem_map.mp hkey
      obtain ⟨node', hnode', heq⟩ := List.mem_map.mp hkey'
      have hold := (hnodes node hnode).2.1
      have hnew := (hgood node' hnode').2
      have hlevel : node'.level = node.level := congrArg Prod.fst heq
      omega
  · simp only [List.length_map]
    omega

/-- Levels are added until one node remains. -/
theorem Sound.exists_root (h : Sound digest hashes s) (hfits : 1 + hashes.length < wordSize) :
    ∃ s', Sound digest hashes s' ∧ s'.current.length = 1 ∧
      ∀ passes, s.current.length < passes →
        loop (CheckpointTree.addLevel digest) passes s = some (.ok s') := by
  induction hn : s.current.length using Nat.strongRecOn generalizing s with
  | ind n ih =>
    subst hn
    have hpos := List.length_pos_iff.mpr h.nonempty
    by_cases hmany : 1 < s.current.length
    · obtain ⟨s', hs', hsound, hless⟩ := h.addLevel hfits hmany
      obtain ⟨root, hroot, hone, hloop⟩ := ih _ hless hsound rfl
      refine ⟨root, hroot, hone, fun passes hpasses => ?_⟩
      obtain ⟨passes, rfl⟩ : ∃ k, passes = k + 1 := ⟨passes - 1, by omega⟩
      rw [loop, hs']
      exact hloop passes (by omega)
    · refine ⟨s, h, by omega, fun passes hpasses => ?_⟩
      obtain ⟨passes, rfl⟩ : ∃ k, passes = k + 1 := ⟨passes - 1, by omega⟩
      rw [loop, CheckpointTree.addLevel, if_neg hmany]

end Loop

section Build

variable {pageSize : ℕ} {bytes : Bytes} {checkpoint : Checkpoint}

/-- The hashes of the pages of a checkpoint, in the order of the pages. -/
def pageHashes (digest : Digest) (pageSize : ℕ) (bytes : Bytes) : List Sha256 :=
  (chunks pageSize bytes).map digest

/-- There is one hash for each page of a checkpoint of whole pages. -/
theorem length_pageHashes (hsize : 0 < pageSize) (hdvd : pageSize ∣ bytes.length) :
    (pageHashes digest pageSize bytes).length = bytes.length / pageSize := by
  obtain ⟨count, hcount⟩ := hdvd
  rw [pageHashes, List.length_map, length_chunks hsize, hcount, Nat.mul_div_cancel_left _ hsize,
    Nat.add_comm, Nat.add_mul_div_left _ _ hsize, Nat.div_eq_of_lt (by omega), Nat.zero_add]

/-- The state before the first level is added, with the leaves as the newest parts. -/
private def afterLeaves (made : List (Part × Artifact)) : Levels :=
  ⟨0, made.map Prod.fst, made.map Prod.snd⟩

/-- The leaves of a checkpoint are a sound start. -/
private theorem exists_leaves (hsize : 0 < pageSize) (hempty : bytes ≠ [])
    (hfits : 1 + (pageHashes digest pageSize bytes).length < wordSize) :
    ∃ first, leaves digest pageSize 0 (chunks (pageSize * checkpointIndexCapacity) bytes) =
        .ok first ∧ Sound digest (pageHashes digest pageSize bytes) (afterLeaves first) := by
  obtain ⟨nodes, hleaves, hgood, hcover⟩ := @leaves_eq_ok digest pageSize hsize bytes 0 (by
    rw [pageHashes, List.length_map] at hfits
    omega)
  have hcover : Cover (IsTree digest ((nodes.map (made digest)).map Prod.snd) 0) 1
      ((nodes.map (made digest)).map Prod.fst) (pageHashes digest pageSize bytes) :=
    hcover _ (List.Subset.refl _)
  have hne : pageHashes digest pageSize bytes ≠ [] := by
    rw [pageHashes, chunks_of_ne_nil hsize hempty]
    exact List.cons_ne_nil _ _
  refine ⟨_, hleaves, hcover, fun hnil => ?_, ?_, nodes, rfl, fun node hnode => ?_,
    nodup_nodeKey hcover⟩
  · rw [afterLeaves] at hnil
    dsimp only at hnil
    rw [hnil] at hcover
    exact hne hcover
  · have hle := hcover.length_le
    simpa [afterLeaves] using hle
  · exact ⟨rooted_of_cover hgood hcover node hnode, (hgood node hnode).2.le, _,
      List.mem_map_of_mem (List.mem_map_of_mem hnode), .here hnode⟩

/-- A single part that is left covers all pages of the checkpoint. -/
private theorem Sound.root {hashes : List Sha256} {s : Levels} {part : Part}
    (h : Sound digest hashes s) (hpart : s.current = [part]) :
    part.pageCount = hashes.length ∧
      IsTree digest s.artifacts s.height 1 hashes part.reference := by
  have hcover := h.cover
  rw [hpart] at hcover
  obtain ⟨own, rest, heq, -, -, hpageCount, htree, hrest⟩ := hcover
  obtain rfl : rest = [] := hrest
  rw [List.append_nil] at heq
  exact heq ▸ ⟨hpageCount, htree⟩

/-- The record of an index, as it is stored with an image. -/
private def indexOf (checkpoint : Checkpoint) (pageSize pageCount : ℕ)
    (reference : PageObjectReference) (height : ℕ) : CheckpointPageIndex :=
  ⟨checkpoint.sha256, checkpoint.length, pageSize, pageCount,
    ⟨reference.uri, reference.sha256, reference.length, height⟩⟩

/-- The record of an index passes its check. -/
private theorem validate_indexOf {reference : PageObjectReference} {height : ℕ}
    (hsize : 0 < pageSize) (hword : pageSize < 4294967296) (hempty : bytes ≠ [])
    (hdvd : pageSize ∣ bytes.length) (hmemory : bytes.length < 9223372036854775808)
    (hlength : checkpoint.length = bytes.length)
    (hheight : height < 64) (hnonempty : 0 < reference.length)
    (hsmall : reference.length ≤ maxCheckpointIndexBytes) :
    (indexOf checkpoint pageSize (bytes.length / pageSize) reference height).validate checkpoint
      pageSize = .ok () := by
  have hproduct : bytes.length / pageSize * pageSize = bytes.length := Nat.div_mul_cancel hdvd
  have hzero : bytes.length / pageSize ≠ 0 := by
    intro hzero
    rw [hzero, Nat.zero_mul] at hproduct
    exact hempty (List.length_eq_zero_iff.mp hproduct.symm)
  have hmul : checkedMul (bytes.length / pageSize) pageSize = some bytes.length :=
    checkedMul_eq_some.mpr ⟨by rw [hproduct]; unfold wordSize; omega, hproduct.symm⟩
  rw [CheckpointPageIndex.validate, indexOf]
  dsimp only
  rw [hmul]
  dsimp only
  rw [if_neg (by simp only [ne_eq, not_true_eq_false, false_or]; omega)]

/-- The last part becomes the root of the index. -/
private theorem finishIndex_eq {pageCount : ℕ} {s : Levels} {part : Part}
    (hpart : s.current = [part]) (hcount : part.pageCount = pageCount)
    (hvalid : (indexOf checkpoint pageSize pageCount part.reference s.height).validate checkpoint
      pageSize = .ok ()) :
    finishIndex checkpoint pageSize pageCount s =
      .ok (indexOf checkpoint pageSize pageCount part.reference s.height, s.artifacts) := by
  have hlast : s.current.getLast? = some part := by
    rw [hpart]
    rfl
  rw [finishIndex, hlast]
  refine (ok_bind (orRefuse_eq_ok.mpr rfl)).trans
    ((passed_bind (not_not.mpr hcount)).trans ?_)
  dsimp only
  rw [indexOf] at hvalid
  rw [hvalid]
  rfl

/-- Building an index goes through its checks, the leaves, the levels and the last check. -/
private theorem build_eq {first : List (Part × Artifact)} {s : Levels} {passes : ℕ}
    {r : Except (Fault RuntimeError) (CheckpointPageIndex × List Artifact)}
    (hsize : 0 < pageSize) (hword : pageSize < 4294967296) (hempty : bytes ≠ [])
    (hdvd : pageSize ∣ bytes.length) (hhash : checkpoint.sha256 = objectHash digest bytes)
    (hlength : checkpoint.length = bytes.length)
    (hleaves : leaves digest pageSize 0 (chunks (pageSize * checkpointIndexCapacity) bytes) =
      .ok first)
    (hloop : loop (addLevel digest) passes (afterLeaves first) = some (.ok s))
    (hfinish : finishIndex checkpoint pageSize (bytes.length / pageSize) s = r) :
    build digest passes checkpoint pageSize bytes = given r := by
  have hgood : ¬(pageSize = 0 ∨ bytes.isEmpty = true ∨ bytes.length % pageSize ≠ 0 ∨
      objectHash digest bytes ≠ checkpoint.sha256 ∨ bytes.length ≠ checkpoint.length) := by
    rw [hhash, hlength, Nat.mod_eq_zero_of_dvd hdvd]
    simp only [List.isEmpty_iff, hempty, ne_eq, not_true_eq_false, or_false]
    omega
  have hleaf : checkedMul pageSize checkpointIndexCapacity =
      some (pageSize * checkpointIndexCapacity) :=
    checkedMul_eq_some.mpr ⟨by unfold wordSize checkpointIndexCapacity; omega, rfl⟩
  rw [afterLeaves] at hloop
  rw [build, (refuseIf_eq_ok (u := ())).mpr hgood, given_ok_bind, hleaf, orRefuse, given_ok_bind,
    hleaves, given_ok_bind, hloop]
  exact congrArg given hfinish

/-- An index is built for every checkpoint of whole pages. -/
theorem exists_build (hsize : 0 < pageSize) (hword : pageSize < 4294967296) (hempty : bytes ≠ [])
    (hdvd : pageSize ∣ bytes.length) (hmemory : bytes.length < 9223372036854775808)
    (hhash : checkpoint.sha256 = objectHash digest bytes)
    (hlength : checkpoint.length = bytes.length) :
    ∃ index s, Gives (fun passes => build digest passes checkpoint pageSize bytes)
        (.ok (index, s.artifacts)) ∧ Sound digest (pageHashes digest pageSize bytes) s ∧
      index.pageCount = bytes.length / pageSize ∧ index.root.height = s.height ∧
      index.validate checkpoint pageSize = .ok () ∧
      IsTree digest s.artifacts s.height 1 (pageHashes digest pageSize bytes)
        index.root.reference ∧ ∀ p ∈ s.current, p.reference = index.root.reference := by
  have hcount : (pageHashes digest pageSize bytes).length = bytes.length / pageSize :=
    length_pageHashes hsize hdvd
  have hpages : bytes.length / pageSize ≤ bytes.length := Nat.div_le_self _ _
  have hfits : 1 + (pageHashes digest pageSize bytes).length < wordSize := by
    unfold wordSize
    omega
  obtain ⟨first, hleaves, hstart⟩ := exists_leaves hsize hempty hfits
  obtain ⟨s, hsound, hone, hloop⟩ := hstart.exists_root hfits
  obtain ⟨part, hpart⟩ := List.length_eq_one_iff.mp hone
  obtain ⟨hpageCount, htree⟩ := hsound.root hpart
  obtain ⟨hnonempty, hsmall⟩ := htree.length_reference
  have hvalid := validate_indexOf hsize hword hempty hdvd hmemory hlength
    (hsound.height_lt hfits) hnonempty hsmall
  have hfinish := finishIndex_eq hpart (hpageCount.trans hcount) hvalid
  refine ⟨_, s, ⟨(afterLeaves first).current.length + 1, fun passes hpasses => ?_⟩, hsound, rfl,
    rfl, hvalid, htree, fun p hp => congrArg Part.reference (List.mem_singleton.mp (hpart ▸ hp))⟩
  exact build_eq hsize hword hempty hdvd hhash hlength hleaves
    (hloop passes (Nat.lt_of_succ_le hpasses)) hfinish

end Build

section Unique

variable {node node' : CheckpointIndexNode} {r' : PageObjectReference}

/-- The byte strings that are stored, on which the hash has to be injective. -/
def storedBytes (objects : List Artifact) : Set Bytes := {bytes | ∃ a ∈ objects, a.bytes = bytes}

/-- Good nodes with one encoding are one node. -/
theorem Good.eq_of_encode (h : Good node) (h' : Good node') (heq : node.encode = node'.encode) :
    node = node' := by
  have hdecode : decodeCheckpointIndex node.encode = .ok node :=
    decodeCheckpointIndex_eq_ok.mpr ⟨h.inRange, h.valid, h.small, rfl⟩
  have hdecode' : decodeCheckpointIndex node'.encode = .ok node' :=
    decodeCheckpointIndex_eq_ok.mpr ⟨h'.inRange, h'.valid, h'.small, rfl⟩
  rw [heq, hdecode'] at hdecode
  exact (Except.ok.inj hdecode).symm

/-- Stored nodes with one location are one node. -/
theorem Stored.unique (hinj : Set.InjOn digest (storedBytes objects))
    (h : Stored digest objects node r) (h' : Stored digest objects node' r')
    (huri : r.uri = r'.uri) : node = node' := by
  rw [h.reference_eq, h'.reference_eq] at huri
  have hhash := indexUri_injective huri
  exact h.toGood.eq_of_encode h'.toGood (hinj ⟨_, h.mem, rfl⟩ ⟨_, h'.mem, rfl⟩ hhash)

/-- No two nodes of an index are stored at one location. -/
theorem Sound.nodup_uris {s : Levels} (h : Sound digest hashes s)
    (hinj : Set.InjOn digest (storedBytes s.artifacts)) :
    (s.artifacts.map Artifact.uri).Nodup := by
  obtain ⟨nodes, hartifacts, hgood, hnodup⟩ := h.nodes
  have hmem : ∀ node ∈ nodes, node.encode ∈ storedBytes s.artifacts := by
    intro node hnode
    refine ⟨(made digest node).2, ?_, rfl⟩
    rw [hartifacts]
    exact List.mem_map_of_mem (List.mem_map_of_mem hnode)
  rw [hartifacts, List.map_map, List.map_map]
  refine (List.Nodup.of_map nodeKey hnodup).map_on fun node hnode node' hnode' heq => ?_
  have hhash := indexUri_injective heq
  exact (hgood node hnode).1.toGood.eq_of_encode (hgood node' hnode').1.toGood
    (hinj (hmem node hnode) (hmem node' hnode') hhash)

end Unique

section Verify

variable {store : String → Except RuntimeError Bytes} {pageSize : ℕ} {checkpoint : Bytes}
  {node : CheckpointIndexNode} {own rest : List Sha256} {parts : List Part} {seen : List String}

/-- The hashes are those of the pages of a checkpoint from some page on. -/
def Matches (digest : Digest) (pageSize : ℕ) (checkpoint : Bytes) (first : ℕ)
    (hashes : List Sha256) : Prop :=
  ∀ i hash, hashes[i]? = some hash → ∃ page,
    getRange? checkpoint ((first - 1 + i) * pageSize) ((first - 1 + i) * pageSize + pageSize) =
      some page ∧ digest page = hash

/-- Hashes that match from a page on match piecewise. -/
theorem Matches.append (hfirst : 0 < first)
    (h : Matches digest pageSize checkpoint first (own ++ rest)) :
    Matches digest pageSize checkpoint first own ∧
      Matches digest pageSize checkpoint (first + own.length) rest := by
  refine ⟨fun i hash hi => h i hash ?_, fun i hash hi => ?_⟩
  · have hlt := (List.getElem?_eq_some_iff.mp hi).1
    rwa [List.getElem?_append_left hlt]
  · have hindex : first + own.length - 1 + i = first - 1 + (own.length + i) := by omega
    rw [hindex]
    refine h _ hash ?_
    rwa [List.getElem?_append_right (Nat.le_add_right _ _), Nat.add_sub_cancel_left]

/-- The hashes of the pages match the pages. -/
theorem matches_pageHashes (hsize : 0 < pageSize) (hdvd : pageSize ∣ checkpoint.length) :
    Matches digest pageSize checkpoint 1 (pageHashes digest pageSize checkpoint) := by
  intro i hash hi
  rw [pageHashes, List.getElem?_map, getElem?_chunks hsize] at hi
  split at hi
  · next hlt =>
    have hstop : i * pageSize + pageSize ≤ checkpoint.length := by
      obtain ⟨count, hcount⟩ := hdvd
      rw [hcount, Nat.mul_comm pageSize] at hlt ⊢
      have hi := Nat.lt_of_mul_lt_mul_right hlt
      have hle := Nat.mul_le_mul_right pageSize (Nat.succ_le_of_lt hi)
      rwa [Nat.succ_mul] at hle
    refine ⟨_, getRange?_eq_some.mpr ⟨?_, ?_, rfl⟩, ?_⟩
    · omega
    · rw [Nat.sub_self, Nat.zero_add]
      exact hstop
    · rw [Nat.sub_self, Nat.zero_add, Nat.add_sub_cancel_left]
      exact Option.some.inj hi
  · cases hi

/-- The hashes of the pages of a node match the pages. -/
theorem Matches.pagesOf (hmatches : Matches digest pageSize checkpoint 1 hashes) :
    Matches digest pageSize checkpoint node.firstPage (CheckpointTree.pagesOf hashes node) := by
  intro i hash hi
  rw [CheckpointTree.pagesOf, List.getElem?_take] at hi
  split at hi
  · rw [List.getElem?_drop] at hi
    obtain ⟨page, hpage, hhash⟩ := hmatches _ hash hi
    rw [Nat.sub_self, Nat.zero_add] at hpage
    exact ⟨page, hpage, hhash⟩
  · cases hi

/-- The hashes of a leaf are accepted. -/
theorem verifyHashes_eq_ok (hfirst : 0 < first) (hsize : 0 < pageSize)
    (hmemory : checkpoint.length < wordSize) (offset : ℕ)
    (h : ∀ i hash, hashes[i]? = some hash → ∃ page,
      getRange? checkpoint ((first - 1 + (offset + i)) * pageSize)
        ((first - 1 + (offset + i)) * pageSize + pageSize) = some page ∧ digest page = hash) :
    verifyHashes digest pageSize checkpoint first offset hashes = .ok () := by
  induction hashes generalizing offset with
  | nil => rfl
  | cons hash hashes ih =>
    obtain ⟨page, hpage, rfl⟩ := h 0 hash rfl
    rw [Nat.add_zero] at hpage
    have hstop := (getRange?_eq_some.mp hpage).2.1
    have hindex : first - 1 + offset + 1 ≤ checkpoint.length := by
      have hle := Nat.le_mul_of_pos_right (first - 1 + offset + 1) hsize
      rw [Nat.succ_mul] at hle
      omega
    have hbefore : first + offset - 1 = first - 1 + offset := by omega
    have hgood : ¬(getRange? checkpoint ((first - 1 + offset) * pageSize)
        ((first - 1 + offset) * pageSize + pageSize)).all
        (fun bytes => decide (digest bytes ≠ digest page)) = true := by
      rw [hpage]
      simp
    rw [verifyHashes, ok_bind (orRefuse_eq_ok.mpr (checkedAdd_eq_some.mpr ⟨by omega, rfl⟩)),
      ok_bind (subOrPanic_eq (by omega)), hbefore,
      ok_bind (orRefuse_eq_ok.mpr (checkedMul_eq_some.mpr ⟨by omega, rfl⟩)),
      ok_bind (orRefuse_eq_ok.mpr (checkedAdd_eq_some.mpr ⟨by omega, rfl⟩)), passed_bind hgood]
    refine ih (offset + 1) fun i hash' hi => ?_
    have hshift : offset + 1 + i = offset + (i + 1) := by omega
    rw [hshift]
    exact h (i + 1) hash' hi

/-- A stored node is read back under the location of its reference. -/
theorem Stored.read (h : Stored digest objects node r)
    (hstore : ∀ a ∈ objects, store a.uri = .ok a.bytes) : store r.uri = .ok node.encode :=
  hstore _ h.mem

/-- A stored node is read back from its encoding. -/
theorem Stored.decode (h : Stored digest objects node r) :
    decodeCheckpointIndex node.encode = .ok node :=
  decodeCheckpointIndex_eq_ok.mpr ⟨h.inRange, h.valid, h.small, rfl⟩

/-- A location is of a node of a tree over some pages. -/
def Below (digest : Digest) (objects : List Artifact) (level first count : ℕ) (uri : String) :
    Prop :=
  ∃ node r, Stored digest objects node r ∧ r.uri = uri ∧ node.level ≤ level ∧
    first ≤ node.firstPage ∧ node.firstPage < first + count

/-- A stored node of the declared interval is accepted when what it says is. -/
theorem verifyNodeWith_eq {descend : CheckpointIndexChild → List String →
      Except (Fault RuntimeError) (List String)}
    (hstored : Stored digest objects node r) (hstore : ∀ a ∈ objects, store a.uri = .ok a.bytes)
    (hlevel : node.level = level) (hheight : level ≤ 64) (hfirst : node.firstPage = first)
    (hcount : node.pages = hashes.length) (hseen : r.uri ∉ seen) :
    verifyNodeWith digest store pageSize checkpoint level descend r first hashes.length seen =
      verifyContents digest pageSize checkpoint descend (r.uri :: seen) node := by
  have hsmall : r.length ≤ maxCheckpointIndexBytes := by
    rw [hstored.reference_eq]
    exact hstored.small
  have hgood : ¬(level > 64 ∨ r.uri ∈ seen ∨ r.length > maxCheckpointIndexBytes) := by
    simp only [not_or, not_lt]
    exact ⟨hheight, hseen, hsmall⟩
  have hread : verifiedRead digest store ⟨r.uri, r.sha256, some r.length,
      some checkpointPageIndexMediaType⟩ = .ok node.encode := by
    rw [verifiedRead, ok_bind (hstored.read hstore), hstored.reference_eq]
    exact if_neg (by simp [refOf, objectHash])
  have hinterval :
      ¬(node.level ≠ level ∨ node.firstPage ≠ first ∨ hashes.length ≠ hashes.length) := by
    simp [hlevel, hfirst]
  rw [verifyNodeWith, passed_bind hgood, hread]
  refine (ok_bind rfl).trans ?_
  rw [hstored.decode]
  refine (ok_bind rfl).trans ?_
  rw [(CheckpointIndexNode.pageCount_eq_ok hstored.valid).1, hcount]
  exact (ok_bind rfl).trans (passed_bind hinterval)

/-- What is below one of two trees side by side is not below the other. -/
theorem Below.apart (hinj : Set.InjOn digest (storedBytes objects)) {level' first' count count' : ℕ}
    {uri : String} (h : Below digest objects level first count uri) (hle : first + count ≤ first') :
    ¬Below digest objects level' first' count' uri := by
  rintro ⟨node', r', hstored', huri', -, hfirst', -⟩
  obtain ⟨node, r, hstored, rfl, -, -, hlast⟩ := h
  obtain rfl := hstored.unique hinj hstored' huri'.symm
  omega

/-- What is below a part of a tree is below the whole. -/
theorem Below.mono {level' first' count count' : ℕ} {uri : String}
    (h : Below digest objects level first count uri) (hlevel : level ≤ level')
    (hfirst : first' ≤ first) (hlast : first + count ≤ first' + count') :
    Below digest objects level' first' count' uri := by
  obtain ⟨node, r, hstored, huri, hle, hstart, hstop⟩ := h
  exact ⟨node, r, hstored, huri, hle.trans hlevel, hfirst.trans hstart, by omega⟩

/-- The location of a tree is below it. -/
theorem IsTree.below (h : IsTree digest objects level first hashes r) :
    Below digest objects level first hashes.length r.uri := by
  obtain ⟨node, hstored, hlevel, hfirst, hpages⟩ := h.exists_stored
  refine ⟨node, r, hstored, rfl, hlevel.le, hfirst.ge, ?_⟩
  have hpos : 0 < node.pages := by
    cases level with
    | zero =>
      have hstored' : Stored digest objects (.leaf first hashes) r := h
      have hempty := (CheckpointIndexNode.validate_leaf_eq_ok.mp hstored'.valid).2.1
      exact hpages ▸ List.length_pos_iff.mpr hempty
    | succ level =>
      obtain ⟨parts, hstored', hcover⟩ := h
      obtain ⟨-, hempty, -⟩ := CheckpointIndexNode.validate_internal_eq_ok.mp hstored'.valid
      have hparts := List.length_pos_iff.mpr hempty
      have hle := hcover.length_le
      rw [List.length_map] at hparts
      omega
  omega

/-- Trees side by side are accepted one after the other. -/
theorem foldlM_verify (hinj : Set.InjOn digest (storedBytes objects))
    (ih : ∀ {first hashes r seen}, IsTree digest objects level first hashes r → 0 < first →
      Matches digest pageSize checkpoint first hashes →
      (∀ uri ∈ seen, ¬Below digest objects level first hashes.length uri) →
      ∃ seen', verifyCheckpointIndexNode digest store pageSize checkpoint level r first
          hashes.length seen = .ok seen' ∧
        ∀ uri ∈ seen', uri ∈ seen ∨ Below digest objects level first hashes.length uri)
    (h : Cover (IsTree digest objects level) first parts hashes) (hfirst : 0 < first)
    (hmatches : Matches digest pageSize checkpoint first hashes)
    (hseen : ∀ uri ∈ seen, ¬Below digest objects level first hashes.length uri) :
    ∃ seen', (parts.map Part.child).foldlM (fun seen e => verifyCheckpointIndexNode digest store
        pageSize checkpoint level e.child e.firstPage e.pageCount seen) seen = .ok seen' ∧
      ∀ uri ∈ seen', uri ∈ seen ∨ Below digest objects level first hashes.length uri := by
  induction parts generalizing first hashes seen with
  | nil => exact ⟨seen, rfl, fun uri huri => .inl huri⟩
  | cons p parts ihp =>
    obtain ⟨own, rest, rfl, -, rfl, hcount, htree, hrest⟩ := h
    obtain ⟨hown, hothers⟩ := hmatches.append hfirst
    rw [List.length_append] at hseen ⊢
    obtain ⟨mid, hmid, hnew⟩ := ih htree hfirst hown fun uri huri hbelow =>
      hseen uri huri (hbelow.mono (Nat.le_refl _) (Nat.le_refl _) (by omega))
    obtain ⟨seen', hseen', hlast⟩ := ihp hrest (by omega) hothers fun uri huri hbelow => by
      obtain hold | hbelow' := hnew uri huri
      · exact hseen uri hold (hbelow.mono (Nat.le_refl _) (by omega) (by omega))
      · exact hbelow'.apart hinj (Nat.le_refl _) hbelow
    refine ⟨seen', ?_, fun uri huri => ?_⟩
    · rw [List.map_cons, List.foldlM_cons]
      simp only [Part.child]
      rw [hcount, ok_bind hmid]
      exact hseen'
    · obtain huri | hbelow := hlast uri huri
      · obtain hold | hbelow := hnew uri huri
        · exact .inl hold
        · exact .inr (hbelow.mono (Nat.le_refl _) (Nat.le_refl _) (by omega))
      · exact .inr (hbelow.mono (Nat.le_refl _) (by omega) (by omega))

/-- A tree over the pages of a checkpoint is accepted, and notes only its own locations. -/
theorem verifyCheckpointIndexNode_eq_ok (hinj : Set.InjOn digest (storedBytes objects))
    (hstore : ∀ a ∈ objects, store a.uri = .ok a.bytes) (hsize : 0 < pageSize)
    (hmemory : checkpoint.length < wordSize)
    (h : IsTree digest objects level first hashes r) (hfirst : 0 < first) (hheight : level ≤ 64)
    (hmatches : Matches digest pageSize checkpoint first hashes)
    (hseen : ∀ uri ∈ seen, ¬Below digest objects level first hashes.length uri) :
    ∃ seen', verifyCheckpointIndexNode digest store pageSize checkpoint level r first hashes.length
        seen = .ok seen' ∧
      ∀ uri ∈ seen', uri ∈ seen ∨ Below digest objects level first hashes.length uri := by
  induction level generalizing first hashes r seen with
  | zero =>
    have hown := h.below
    have hstored : Stored digest objects (.leaf first hashes) r := h
    refine ⟨r.uri :: seen, ?_, fun uri huri => ?_⟩
    · have hhashes : verifyHashes digest pageSize checkpoint first 0 hashes = .ok () :=
        verifyHashes_eq_ok hfirst hsize hmemory 0 fun i hash hi => by
          rw [Nat.zero_add]
          exact hmatches i hash hi
      rw [verifyCheckpointIndexNode]
      refine (verifyNodeWith_eq hstored hstore rfl hheight rfl rfl
        fun hmem => hseen _ hmem hown).trans ?_
      rw [verifyContents, ok_bind hhashes]
      rfl
    · obtain rfl | huri := List.mem_cons.mp huri
      · exact .inr hown
      · exact .inl huri
  | succ level ih =>
    have hown := h.below
    obtain ⟨parts, hstored, hcover⟩ := h
    obtain ⟨-, hempty, -⟩ := CheckpointIndexNode.validate_internal_eq_ok.mp hstored.valid
    obtain ⟨hfirstPage, hpages⟩ := hcover.interval (fun hnil => hempty (hnil ▸ rfl)) (level + 1)
    obtain ⟨seen', hseen', hnew⟩ := foldlM_verify hinj
      (fun h hfirst hmatches hseen => ih h hfirst (by omega) hmatches hseen) hcover hfirst hmatches
      fun uri huri hbelow => by
        obtain rfl | huri := List.mem_cons.mp huri
        · obtain ⟨node, r', hstored', huri', hlevel, -⟩ := hbelow
          obtain rfl := hstored.unique hinj hstored' huri'.symm
          exact absurd hlevel (Nat.not_succ_le_self level)
        · exact hseen uri huri (hbelow.mono (Nat.le_succ level) (Nat.le_refl _) (Nat.le_refl _))
    refine ⟨seen', ?_, fun uri huri => ?_⟩
    · rw [verifyCheckpointIndexNode]
      exact (verifyNodeWith_eq hstored hstore rfl hheight hfirstPage hpages
        fun hmem => hseen _ hmem hown).trans hseen'
    · obtain huri | hbelow := hnew uri huri
      · obtain rfl | huri := List.mem_cons.mp huri
        · exact .inr hown
        · exact .inl huri
      · exact .inr (hbelow.mono (Nat.le_succ level) (Nat.le_refl _) (Nat.le_refl _))

end Verify

section Descend

variable {store : String → Except RuntimeError Bytes} {reserve : ℕ → Except RuntimeError Unit}
  {node : CheckpointIndexNode} {parts : List Part} {page : ℕ}

/-- The child that holds a page is found. -/
theorem Cover.find_eq (h : Cover (IsTree digest objects level) first parts hashes)
    (hfirst : first ≤ page) (hlast : page < first + hashes.length) :
    ∃ e own, (parts.map Part.child).find? (fun e => decide (e.firstPage ≤ page) &&
        decide (page - e.firstPage < e.pageCount)) = some e ∧
      IsTree digest objects level e.firstPage own e.child ∧ e.pageCount = own.length ∧
      e.firstPage ≤ page ∧ page < e.firstPage + own.length ∧
      own[page - e.firstPage]? = hashes[page - first]? := by
  induction parts generalizing first hashes with
  | nil =>
    obtain rfl : hashes = [] := h
    simp at hlast
    omega
  | cons p parts ih =>
    obtain ⟨own, rest, rfl, -, rfl, hcount, htree, hrest⟩ := h
    rw [List.length_append] at hlast
    rw [List.map_cons, List.find?_cons]
    by_cases hown : page < p.firstPage + own.length
    · have hfound : (decide (p.child.firstPage ≤ page) &&
          decide (page - p.child.firstPage < p.child.pageCount)) = true := by
        change (decide (p.firstPage ≤ page) && decide (page - p.firstPage < p.pageCount)) = true
        simp only [Bool.and_eq_true, decide_eq_true_eq]
        omega
      rw [hfound]
      refine ⟨p.child, own, rfl, htree, hcount, hfirst, hown, ?_⟩
      rw [List.getElem?_append_left (by omega)]
      rfl
    · have hother : (decide (p.child.firstPage ≤ page) &&
          decide (page - p.child.firstPage < p.child.pageCount)) = false := by
        change (decide (p.firstPage ≤ page) && decide (page - p.firstPage < p.pageCount)) = false
        simp only [Bool.and_eq_false_iff, decide_eq_false_iff_not]
        omega
      obtain ⟨e, own', hfind, htree', hcount', hstart, hstop, hget⟩ :=
        ih hrest (by omega) (by omega)
      rw [hother]
      refine ⟨e, own', hfind, htree', hcount', hstart, hstop, ?_⟩
      rw [hget, List.getElem?_append_right (by omega)]
      congr 1
      omega

/-- A node that can be read under a reference. -/
structure Held (digest : Digest) (store : String → Except RuntimeError Bytes)
    (node : CheckpointIndexNode) (r : PageObjectReference) : Prop extends Good node where
  read : store r.uri = .ok node.encode
  hash : digest node.encode = r.sha256
  length : r.length = node.encode.length

/-- A stored node can be fetched from every store that has the objects. -/
theorem Stored.held (h : Stored digest objects node r)
    (hstore : ∀ a ∈ objects, store a.uri = .ok a.bytes) : Held digest store node r :=
  ⟨h.toGood, h.read hstore, by rw [h.reference_eq, refOf], by rw [h.reference_eq, refOf]⟩

/-- The memory that is asked for to read a node. -/
def nodeMemory (node : CheckpointIndexNode) : ℕ :=
  min (node.encode.length * 6) (wordSize - 1) + 4096

/-- The memory for a stored node over a page is refused. -/
def MemoryRefused (digest : Digest) (store : String → Except RuntimeError Bytes)
    (reserve : ℕ → Except RuntimeError Unit) (page : ℕ) (e : RuntimeError) : Prop :=
  ∃ node r, Held digest store node r ∧ node.firstPage ≤ page ∧
    page < node.firstPage + node.pages ∧ reserve (nodeMemory node) = .error e

/-- A node of the declared interval is searched, unless memory is refused. -/
theorem Held.hashInNodeWith_eq
    {descend : CheckpointIndexChild → Except (Fault RuntimeError) Sha256} {count : ℕ}
    (h : Held digest store node r) (hlevel : node.level = level) (hfirst : node.firstPage = first)
    (hcount : node.pages = count) :
    hashInNodeWith digest store reserve page level descend r first count =
        hashIn page descend node ∨
      ∃ e, reserve (nodeMemory node) = .error e ∧
        hashInNodeWith digest store reserve page level descend r first count =
          .error (.refused e) := by
  have hread : treeNode digest store r = .ok node.encode := by
    have hpos := length_encode_pos node
    have hsmall := h.small
    unfold maxCheckpointIndexBytes at hsmall
    have hsize : ¬(r.length = 0 ∨ r.length > 1048576) := by
      rw [h.length]
      omega
    rw [treeNode, if_neg hsize, ok_bind h.read]
    simp [h.length, h.hash]
  have hdecode : decodeCheckpointIndex node.encode = .ok node :=
    decodeCheckpointIndex_eq_ok.mpr ⟨h.inRange, h.valid, h.small, rfl⟩
  have hinterval : ¬(node.level ≠ level ∨ node.firstPage ≠ first ∨ count ≠ count) := by
    simp [hlevel, hfirst]
  rw [hashInNodeWith, hread]
  cases hreserve : reserve (nodeMemory node) with
  | error e =>
    rw [nodeMemory] at hreserve
    exact .inr ⟨e, rfl, (ok_bind rfl).trans (by rw [hreserve]; rfl)⟩
  | ok u =>
    left
    rw [nodeMemory] at hreserve
    refine (ok_bind rfl).trans ?_
    rw [hreserve, hdecode]
    refine (ok_bind rfl).trans ((ok_bind rfl).trans ?_)
    rw [(CheckpointIndexNode.pageCount_eq_ok h.valid).1, hcount]
    exact (ok_bind rfl).trans (passed_bind hinterval)

/-- The path from a tree to a page ends at the hash of the page, unless memory is refused. -/
theorem hashBelow_eq (hstore : ∀ a ∈ objects, store a.uri = .ok a.bytes)
    (h : IsTree digest objects level first hashes r) (hfirst : first ≤ page)
    (hlast : page < first + hashes.length) :
    (∃ hash, hashes[page - first]? = some hash ∧
      hashBelow digest store reserve page level r first hashes.length = .ok hash) ∨
    ∃ e, MemoryRefused digest store reserve page e ∧
      hashBelow digest store reserve page level r first hashes.length = .error (.refused e) := by
  induction level generalizing first hashes r with
  | zero =>
    have hstored : Stored digest objects (.leaf first hashes) r := h
    have hlevel : (CheckpointIndexNode.leaf first hashes).level = 0 := rfl
    have hinterval : (CheckpointIndexNode.leaf first hashes).firstPage = first := rfl
    have hpages : (CheckpointIndexNode.leaf first hashes).pages = hashes.length := rfl
    rw [hashBelow]
    obtain hsearch | ⟨e, hrefused, herror⟩ :=
      (hstored.held hstore).hashInNodeWith_eq hlevel hinterval hpages
    · have hget := List.getElem?_eq_getElem (show page - first < hashes.length by omega)
      refine .inl ⟨_, hget, ?_⟩
      rw [hsearch, hashIn, ok_bind (subOrPanic_eq hfirst), hget]
      rfl
    · exact .inr ⟨e, ⟨_, r, hstored.held hstore, hfirst, hlast, hrefused⟩, herror⟩
  | succ level ih =>
    obtain ⟨parts, hstored, hcover⟩ := h
    obtain ⟨-, hempty, -⟩ := CheckpointIndexNode.validate_internal_eq_ok.mp hstored.valid
    obtain ⟨hfirstPage, hpages⟩ := hcover.interval (fun hnil => hempty (hnil ▸ rfl)) (level + 1)
    obtain ⟨e, own, hfind, htree, hcount, hstart, hstop, hget⟩ := hcover.find_eq hfirst hlast
    have hlevel : (CheckpointIndexNode.internal (level + 1) (parts.map Part.child)).level =
        level + 1 := rfl
    rw [hashBelow]
    obtain hsearch | ⟨e, hrefused, herror⟩ :=
      (hstored.held hstore).hashInNodeWith_eq hlevel hfirstPage hpages
    · rw [hsearch, hashIn, hfind, ok_bind (orRefuse_eq_ok.mpr rfl), hcount, ← hget]
      exact ih htree hstart hstop
    · exact .inr ⟨e, ⟨_, r, hstored.held hstore, hfirstPage.trans_le hfirst,
        by rwa [hfirstPage, hpages], hrefused⟩, herror⟩

end Descend

section Complete

variable {pageSize : ℕ} {bytes : Bytes} {checkpoint : Checkpoint}

/-- A node belongs to an index over a checkpoint. It is valid and has a tree over its own pages, it
is reached from the root, and it is accepted for the checkpoint wherever the nodes are stored, when
the hash tells their encodings apart. -/
structure Belongs (digest : Digest) (pageSize : ℕ) (bytes : Bytes) (artifacts : List Artifact)
    (nodes : List CheckpointIndexNode) (root : PageObjectReference) (node : CheckpointIndexNode) :
    Prop where
  rooted : Rooted digest artifacts (pageHashes digest pageSize bytes) node
  reached : Reaches digest nodes node root
  accepted : Set.InjOn digest (storedBytes artifacts) →
    ∀ store : String → Except RuntimeError Bytes,
    (∀ a ∈ artifacts, store a.uri = .ok a.bytes) → ∃ seen,
      verifyCheckpointIndexNode digest store pageSize bytes node.level (refOf digest node)
        node.firstPage node.pages [] = .ok seen

/-- An index is complete for a checkpoint. Its nodes form a tree whose leaves list the hashes of all
pages in order, every object that is made is a node that belongs to the tree, and no two of them
share a location when the hash tells their encodings apart. The index is then accepted for the
checkpoint wherever its nodes are stored. The path to each page ends at the hash of the page, unless
memory for a node over that page is refused. -/
structure Complete (digest : Digest) (pageSize : ℕ) (bytes : Bytes) (checkpoint : Checkpoint)
    (index : CheckpointPageIndex) (artifacts : List Artifact) : Prop where
  built : Gives (fun passes => build digest passes checkpoint pageSize bytes)
    (.ok (index, artifacts))
  pageCount : index.pageCount = bytes.length / pageSize
  tree : IsTree digest artifacts index.root.height 1 (pageHashes digest pageSize bytes)
    index.root.reference
  nodes : ∃ nodes : List CheckpointIndexNode,
    artifacts = nodes.map (fun node => (made digest node).2) ∧
    ∀ node ∈ nodes, Belongs digest pageSize bytes artifacts nodes index.root.reference node
  nodup : Set.InjOn digest (storedBytes artifacts) → (artifacts.map Artifact.uri).Nodup
  accepted : Set.InjOn digest (storedBytes artifacts) →
    ∀ store : String → Except RuntimeError Bytes,
    (∀ a ∈ artifacts, store a.uri = .ok a.bytes) → ∀ image : MetadataImage,
    image.checkpointPageIndex = some index → image.checkpoint = checkpoint →
    image.pageSize = pageSize → verifyCheckpointIndex digest store image bytes = .ok ()
  found : ∀ store : String → Except RuntimeError Bytes,
    (∀ a ∈ artifacts, store a.uri = .ok a.bytes) →
    ∀ (reserve : ℕ → Except RuntimeError Unit) (page : ℕ), 1 ≤ page →
    page ≤ bytes.length / pageSize →
    checkpointHash digest store reserve (some index) page =
        .ok (digest (slice bytes ((page - 1) * pageSize) pageSize)) ∨
      ∃ e, MemoryRefused digest store reserve page e ∧
        checkpointHash digest store reserve (some index) page = .error (.refused e)

/-- The nodes of sound levels belong to the index over the last one. -/
theorem Sound.belongs {s : Levels} {root : PageObjectReference} (hsize : 0 < pageSize)
    (hdvd : pageSize ∣ bytes.length) (hmemory : bytes.length < wordSize) (hheight : s.height ≤ 64)
    (h : Sound digest (pageHashes digest pageSize bytes) s)
    (hroot : ∀ p ∈ s.current, p.reference = root) : ∃ nodes : List CheckpointIndexNode,
      s.artifacts = nodes.map (fun node => (made digest node).2) ∧
      ∀ node ∈ nodes, Belongs digest pageSize bytes s.artifacts nodes root node := by
  obtain ⟨nodes, hartifacts, hnodes, -⟩ := h.nodes
  refine ⟨nodes, hartifacts.trans List.map_map, fun node hnode => ?_⟩
  obtain ⟨hrooted, hlevel, p, hp, hreaches⟩ := hnodes node hnode
  refine ⟨hrooted, hroot p hp ▸ hreaches, fun hinj store hstore => ?_⟩
  obtain ⟨seen, hseen, -⟩ := verifyCheckpointIndexNode_eq_ok hinj hstore hsize hmemory hrooted.tree
    hrooted.first (hlevel.trans hheight) (matches_pageHashes hsize hdvd).pagesOf
    (fun uri (huri : uri ∈ []) => absurd huri List.not_mem_nil)
  rw [hrooted.length_pagesOf] at hseen
  exact ⟨seen, hseen⟩

/-- A complete index is built for every checkpoint of whole pages. -/
theorem checkpoint_index_complete (hsize : 0 < pageSize) (hword : pageSize < 4294967296)
    (hempty : bytes ≠ []) (hdvd : pageSize ∣ bytes.length)
    (hmemory : bytes.length < 9223372036854775808)
    (hhash : checkpoint.sha256 = objectHash digest bytes)
    (hlength : checkpoint.length = bytes.length) :
    ∃ index artifacts, Complete digest pageSize bytes checkpoint index artifacts := by
  obtain ⟨index, s, hgives, hsound, hcount, hheight, hvalid, htree, hroot⟩ :=
    exists_build hsize hword hempty hdvd hmemory hhash hlength
  have hpages : (pageHashes digest pageSize bytes).length = bytes.length / pageSize :=
    length_pageHashes hsize hdvd
  have hfits : 1 + (pageHashes digest pageSize bytes).length < wordSize := by
    have hle := Nat.div_le_self bytes.length pageSize
    unfold wordSize
    omega
  have hmatches : Matches digest pageSize bytes 1 (pageHashes digest pageSize bytes) :=
    matches_pageHashes hsize hdvd
  rw [← hheight] at htree
  have hlimit := hsound.height_lt hfits
  refine ⟨index, s.artifacts, hgives, hcount, htree,
    hsound.belongs hsize hdvd (hmemory.trans (by decide)) hlimit.le hroot, hsound.nodup_uris,
    fun hinj store hstore image hindex hcheckpoint hpageSize => ?_,
    fun store hstore reserve page hfirst hlast => ?_⟩
  · obtain ⟨seen, hseen, -⟩ := verifyCheckpointIndexNode_eq_ok hinj hstore hsize
      (hmemory.trans (by decide)) htree Nat.one_pos (by omega) hmatches
      (fun uri (huri : uri ∈ []) => nomatch huri)
    rw [verifyCheckpointIndex, hindex]
    dsimp only
    rw [hcheckpoint, hpageSize, hvalid, hcount, ← hpages]
    exact (ok_bind rfl).trans (ok_bind hseen)
  · have hgood : ¬(page = 0 ∨ page > index.pageCount) := by omega
    have hhashAt : ∀ hash, (pageHashes digest pageSize bytes)[page - 1]? = some hash →
        hash = digest (slice bytes ((page - 1) * pageSize) pageSize) := by
      intro hash hget
      obtain ⟨own, hown, rfl⟩ := hmatches _ hash hget
      have hslice := (getRange?_eq_some.mp hown).2.2
      rw [← hslice, Nat.sub_self, Nat.zero_add, Nat.add_sub_cancel_left]
    have hpath : checkpointHash digest store reserve (some index) page =
        hashBelow digest store reserve page index.root.height index.root.reference 1
          (pageHashes digest pageSize bytes).length := by
      rw [checkpointHash, hpages, ← hcount]
      exact (ok_bind (orRefuse_eq_ok.mpr rfl)).trans (passed_bind hgood)
    rw [hpath]
    obtain ⟨hash, hget, hok⟩ | hrefused := hashBelow_eq hstore htree hfirst (by omega)
    · rw [hhashAt hash hget] at hok
      exact .inl hok
    · exact .inr hrefused

/-- A hash that shows the first bytes and the length. -/
def showingDigest : Digest := fun bytes =>
  ⟨((bytes.take 24 ++ List.replicate 24 0).take 24) ++ beBytes 8 bytes.length, by simp⟩

/-- The index over more pages than one leaf may list has an internal node at its root. -/
theorem Complete.height_pos {index : CheckpointPageIndex} {artifacts : List Artifact}
    (h : Complete digest pageSize bytes checkpoint index artifacts)
    (hmany : checkpointIndexCapacity < (pageHashes digest pageSize bytes).length) :
    0 < index.root.height := by
  have htree := h.tree
  cases hheight : index.root.height with
  | zero =>
    rw [hheight] at htree
    have hstored : Stored digest artifacts (.leaf 1 (pageHashes digest pageSize bytes))
        index.root.reference := htree
    have hcapacity := (CheckpointIndexNode.validate_leaf_eq_ok.mp hstored.valid).2.2.1
    omega
  | succ height => exact Nat.succ_pos height

/-- The index of a checkpoint of 129 pages, which has two leaves below its root. -/
theorem checkpoint_index_complete_levels : ∃ index artifacts,
    Complete showingDigest 512 (List.replicate 66048 7)
      ⟨0, "_otmp/checkpoints/a", showingDigest (List.replicate 66048 7), 66048⟩ index artifacts ∧
    0 < index.root.height := by
  have hlength : (List.replicate 66048 (7 : UInt8)).length = 512 * 129 := List.length_replicate
  obtain ⟨index, artifacts, h⟩ := @checkpoint_index_complete showingDigest 512
    (List.replicate 66048 7)
    ⟨0, "_otmp/checkpoints/a", showingDigest (List.replicate 66048 7), 66048⟩ (by decide)
    (by decide) (fun hnil => absurd (hnil ▸ hlength) (by decide)) ⟨129, hlength⟩
    (hlength.trans_lt (by decide)) rfl hlength.symm
  refine ⟨index, artifacts, h, h.height_pos ?_⟩
  rw [length_pageHashes (by decide) ⟨129, hlength⟩, hlength]
  decide

end Complete

end Otmp.CheckpointTree
