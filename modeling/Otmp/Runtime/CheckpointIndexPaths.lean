import Otmp.Runtime.CheckpointIndexComplete
import Otmp.Runtime.PageTreeLoad

/-!
# Paths of accepted checkpoint indexes

An index may come from anywhere. Once the check of a whole index has accepted it for a checkpoint,
its nodes cover the pages without a gap, and each leaf lists the hashes of the checkpoint's pages.
The path to a page, which reads one node of each level, then ends at the hash of that page.
-/

namespace Otmp.CheckpointTree

open Foundation

variable {digest : Digest} {store : String → Except RuntimeError Bytes} {pageSize : ℕ}
  {checkpoint : Bytes} {level first count page : ℕ} {r : PageObjectReference}
  {seen seen' : List String}

section Accepted

variable {hashes : List Sha256} {entries : List CheckpointIndexChild} {e : CheckpointIndexChild}

/-- Accepted hashes are those of the pages that the checkpoint has. -/
theorem hash_of_verifyHashes {offset : ℕ}
    (h : verifyHashes digest pageSize checkpoint first offset hashes = .ok ()) (i : ℕ)
    (hash : Sha256) (hi : hashes[i]? = some hash) (bytes : Bytes)
    (hbytes : getRange? checkpoint ((first + (offset + i) - 1) * pageSize)
      ((first + (offset + i) - 1) * pageSize + pageSize) = some bytes) : digest bytes = hash := by
  induction hashes generalizing offset i with
  | nil => cases hi
  | cons head hashes ih =>
    rw [verifyHashes] at h
    simp only [bind_eq_ok, orRefuse_eq_ok, checkedAdd_eq_some, checkedMul_eq_some,
      refuseIf_eq_ok] at h
    obtain ⟨_, ⟨-, rfl⟩, before, hbefore, _, ⟨-, rfl⟩, _, ⟨-, rfl⟩, -, hgood, h⟩ := h
    obtain ⟨-, rfl⟩ := subOrPanic_eq_ok hbefore
    cases i with
    | zero =>
      obtain rfl : head = hash := Option.some.inj hi
      rw [Nat.add_zero] at hbytes
      rw [hbytes] at hgood
      simpa using hgood
    | succ i =>
      have hshift : first + (offset + (i + 1)) - 1 = first + (offset + 1 + i) - 1 := by omega
      rw [hshift] at hbytes
      exact ih h i hi hbytes

/-- An accepted reference is to a node of the declared interval, whose contents are accepted. -/
theorem held_of_verifyNodeWith {descend : CheckpointIndexChild → List String →
      Except (Fault RuntimeError) (List String)}
    (h : verifyNodeWith digest store pageSize checkpoint level descend r first count seen =
      .ok seen') :
    ∃ node, Held digest store node r ∧ node.level = level ∧ node.firstPage = first ∧
      node.pages = count ∧
      verifyContents digest pageSize checkpoint descend (r.uri :: seen) node = .ok seen' := by
  rw [verifyNodeWith] at h
  simp only [bind_eq_ok, refuseIf_eq_ok, mapError_ok_iff, Physical.liftFault_eq_ok,
    Physical.verifiedRead_eq_ok] at h
  obtain ⟨-, -, bytes, ⟨hread, hhash, hlength⟩, node, hdecode, pages, hpages, -, hinterval, h⟩ := h
  obtain ⟨hrange, hvalid, hsmall, rfl⟩ := decodeCheckpointIndex_eq_ok.mp hdecode
  rw [(CheckpointIndexNode.pageCount_eq_ok hvalid).1] at hpages
  obtain rfl := Except.ok.inj hpages
  simp only [not_or, not_not] at hinterval
  exact ⟨node, ⟨⟨hvalid, hrange, hsmall⟩, hread, hhash, hlength⟩, hinterval.1, hinterval.2.1,
    hinterval.2.2, h⟩

/-- A child that is reached in an accepted node is accepted. -/
theorem accepted_of_foldlM {descend : CheckpointIndexChild → List String →
      Except (Fault RuntimeError) (List String)}
    (h : entries.foldlM (fun seen e => descend e seen) seen = .ok seen') (hmem : e ∈ entries) :
    ∃ before after, descend e before = .ok after := by
  induction entries generalizing seen with
  | nil => cases hmem
  | cons head entries ih =>
    rw [List.foldlM_cons, bind_eq_ok] at h
    obtain ⟨mid, hhead, hrest⟩ := h
    obtain rfl | hmem := List.mem_cons.mp hmem
    · exact ⟨seen, mid, hhead⟩
    · exact ih hrest hmem

/-- Children that follow each other leave no gap. -/
theorem find_of_validateFrom {expected : Option ℕ}
    (h : CheckpointIndexChild.validateFrom expected (e :: entries) = .ok ())
    (hfirst : e.firstPage ≤ page)
    (hlast : page < e.firstPage + ((e :: entries).map CheckpointIndexChild.pageCount).sum) :
    ∃ child ∈ e :: entries, (e :: entries).find? (fun e => decide (e.firstPage ≤ page) &&
        decide (page - e.firstPage < e.pageCount)) = some child ∧
      child.firstPage ≤ page ∧ page < child.firstPage + child.pageCount := by
  induction entries generalizing expected e with
  | nil =>
    have hown : page < e.firstPage + e.pageCount := by simpa using hlast
    refine ⟨e, List.mem_cons_self, ?_, hfirst, hown⟩
    rw [List.find?_cons_of_pos]
    simp only [Bool.and_eq_true, decide_eq_true_eq]
    omega
  | cons next entries ih =>
    obtain ⟨-, -, hrest⟩ := CheckpointIndexChild.validateFrom_cons_eq_ok.mp h
    by_cases hown : page < e.firstPage + e.pageCount
    · refine ⟨e, List.mem_cons_self, ?_, hfirst, hown⟩
      rw [List.find?_cons_of_pos]
      simp only [Bool.and_eq_true, decide_eq_true_eq]
      omega
    · obtain ⟨hgood, -, -⟩ := CheckpointIndexChild.validateFrom_cons_eq_ok.mp hrest
      have hnext : next.firstPage = e.firstPage + e.pageCount := by
        simp only [CheckpointIndexChild.Bad, not_or, Option.any_some, decide_eq_true_eq,
          not_not] at hgood
        exact hgood.2.2.2.2.symm
      rw [List.map_cons, List.sum_cons] at hlast
      obtain ⟨child, hmem, hfind, hstart, hstop⟩ := ih hrest (by omega) (by omega)
      refine ⟨child, List.mem_cons_of_mem e hmem, ?_, hstart, hstop⟩
      rw [List.find?_cons_of_neg, hfind]
      simp only [Bool.and_eq_true, decide_eq_true_eq]
      omega

end Accepted

section Paths

variable {reserve : ℕ → Except RuntimeError Unit}

/-- A path ends at the hash of a page that the checkpoint has, unless memory for a node over the
page is refused. -/
def PathEnds (digest : Digest) (store : String → Except RuntimeError Bytes)
    (reserve : ℕ → Except RuntimeError Unit) (pageSize : ℕ) (checkpoint : Bytes) (page : ℕ)
    (path : Except (Fault RuntimeError) Sha256) : Prop :=
  (∃ hash, path = .ok hash ∧ ∀ bytes, getRange? checkpoint ((page - 1) * pageSize)
      ((page - 1) * pageSize + pageSize) = some bytes → digest bytes = hash) ∨
    ∃ e, MemoryRefused digest store reserve page e ∧ path = .error (.refused e)

/-- The path from an accepted node to a page below it ends at the hash of the page. -/
theorem pathEnds_of_verified (h : verifyCheckpointIndexNode digest store pageSize checkpoint level r
      first count seen = .ok seen') (hfirst : first ≤ page) (hlast : page < first + count) :
    PathEnds digest store reserve pageSize checkpoint page
      (hashBelow digest store reserve page level r first count) := by
  induction level generalizing r first count seen seen' with
  | zero =>
    obtain ⟨node, hheld, hlevel, rfl, rfl, hcontents⟩ := held_of_verifyNodeWith h
    rw [hashBelow]
    obtain hsearch | ⟨e, hrefused, herror⟩ := hheld.hashInNodeWith_eq hlevel rfl rfl
    · rw [hsearch]
      cases node with
      | leaf start hashes =>
        change start ≤ page at hfirst
        change page < start + hashes.length at hlast
        rw [verifyContents, bind_eq_ok] at hcontents
        obtain ⟨_, hhashes, -⟩ := hcontents
        have hget := List.getElem?_eq_getElem (show page - start < hashes.length by omega)
        refine .inl ⟨_, ?_, fun bytes hbytes =>
          hash_of_verifyHashes hhashes (page - start) _ hget bytes ?_⟩
        · rw [hashIn, ok_bind (subOrPanic_eq hfirst), hget]
          rfl
        · have hindex : start + (0 + (page - start)) - 1 = page - 1 := by omega
          rw [hindex]
          exact hbytes
      | internal height entries =>
        exact absurd hlevel (CheckpointIndexNode.validate_internal_eq_ok.mp hheld.valid).1
    · exact .inr ⟨e, ⟨node, r, hheld, hfirst, hlast, hrefused⟩, herror⟩
  | succ level ih =>
    obtain ⟨node, hheld, hlevel, rfl, rfl, hcontents⟩ := held_of_verifyNodeWith h
    rw [hashBelow]
    obtain hsearch | ⟨e, hrefused, herror⟩ := hheld.hashInNodeWith_eq hlevel rfl rfl
    · rw [hsearch]
      cases node with
      | leaf start hashes => cases hlevel
      | internal height entries =>
        obtain ⟨-, hempty, -, hentries⟩ :=
          CheckpointIndexNode.validate_internal_eq_ok.mp hheld.valid
        obtain ⟨e, entries, rfl⟩ := List.exists_cons_of_ne_nil hempty
        obtain ⟨child, hmem, hfind, hstart, hstop⟩ := find_of_validateFrom hentries hfirst hlast
        obtain ⟨before, after, hchild⟩ := accepted_of_foldlM hcontents hmem
        rw [hashIn, hfind, ok_bind (orRefuse_eq_ok.mpr rfl)]
        exact ih hchild hstart hstop
    · exact .inr ⟨e, ⟨node, r, hheld, hfirst, hlast, hrefused⟩, herror⟩

variable {image : MetadataImage} {index : CheckpointPageIndex}

/-- A valid index covers the checkpoint with whole pages. -/
theorem pageCount_mul_of_validate {declared : Checkpoint}
    (h : index.validate declared pageSize = .ok ()) :
    index.pageCount * pageSize = declared.length := by
  rw [CheckpointPageIndex.validate] at h
  split at h
  · cases h
  · next length hlength =>
    obtain ⟨-, rfl⟩ := checkedMul_eq_some.mp hlength
    rw [ite_error_eq_ok] at h
    simp only [not_or, not_not] at h
    obtain ⟨⟨-, -, hsize, -, -, hlength, -⟩, -⟩ := h
    rw [← hlength, hsize]

/-- When an index is accepted for a checkpoint, the path to each page ends at the hash of that page
of the checkpoint, unless memory for a node over that page is refused. -/
theorem accepted_index_paths (hindex : image.checkpointPageIndex = some index)
    (hlength : image.checkpoint.length = checkpoint.length)
    (h : verifyCheckpointIndex digest store image checkpoint = .ok ()) (hfirst : 1 ≤ page)
    (hlast : page ≤ index.pageCount) :
    checkpointHash digest store reserve (some index) page =
        .ok (digest (slice checkpoint ((page - 1) * image.pageSize) image.pageSize)) ∨
      ∃ e, MemoryRefused digest store reserve page e ∧
        checkpointHash digest store reserve (some index) page = .error (.refused e) := by
  rw [verifyCheckpointIndex, hindex] at h
  simp only [bind_eq_ok, mapError_ok_iff, liftProtocol_eq_ok] at h
  obtain ⟨_, hvalid, seen, hseen, -⟩ := h
  have hgood : ¬(page = 0 ∨ page > index.pageCount) := by omega
  have hpath : checkpointHash digest store reserve (some index) page =
      hashBelow digest store reserve page index.root.height index.root.reference 1
        index.pageCount := by
    rw [checkpointHash]
    exact (ok_bind (orRefuse_eq_ok.mpr rfl)).trans (passed_bind hgood)
  have hpage : getRange? checkpoint ((page - 1) * image.pageSize)
      ((page - 1) * image.pageSize + image.pageSize) =
        some (slice checkpoint ((page - 1) * image.pageSize) image.pageSize) := by
    have hbound : (page - 1 + 1) * image.pageSize ≤ index.pageCount * image.pageSize :=
      Nat.mul_le_mul_right _ (by omega)
    rw [pageCount_mul_of_validate hvalid, hlength, Nat.succ_mul] at hbound
    exact getRange?_eq_some.mpr ⟨by omega, hbound, by rw [Nat.add_sub_cancel_left]⟩
  have hends : PathEnds digest store reserve image.pageSize checkpoint page
      (checkpointHash digest store reserve (some index) page) :=
    hpath ▸ pathEnds_of_verified hseen hfirst (by omega)
  obtain ⟨hash, hok, hhash⟩ | hrefused := hends
  · exact .inl (hok.trans (congrArg _ (hhash _ hpage).symm))
  · exact .inr hrefused

/-- A page of equal bytes, of the smallest size that pages may have. -/
def evenPage (byte : UInt8) : Bytes := List.replicate 512 byte

/-- A checkpoint of two pages, each of them in a leaf of its own. -/
def twoPages : Bytes := evenPage 7 ++ evenPage 8

/-- The leaf of one of the pages, with the hash of that page. -/
def sampleLeaf (first : ℕ) (byte : UInt8) : CheckpointIndexNode :=
  .leaf first [showingDigest (evenPage byte)]

/-- The two leaves, with their intervals and their references. -/
def sampleParts : List Part :=
  [(made showingDigest (sampleLeaf 1 7)).1, (made showingDigest (sampleLeaf 2 8)).1]

/-- The node over the leaves, which is the root of the index. -/
def sampleRoot : CheckpointIndexNode := .internal 1 (sampleParts.map Part.child)

/-- The nodes of the index, as they are stored. -/
def sampleObjects : List Physical.Artifact :=
  [(made showingDigest (sampleLeaf 1 7)).2, (made showingDigest (sampleLeaf 2 8)).2,
    (made showingDigest sampleRoot).2]

/-- The index of the checkpoint, with a root one level above the leaves. -/
def sampleIndex : CheckpointPageIndex :=
  ⟨showingDigest twoPages, 1024, 512, 2, ⟨indexUri (showingDigest sampleRoot.encode),
    showingDigest sampleRoot.encode, sampleRoot.encode.length, 1⟩⟩

/-- An image with the index, and with nothing but its checkpoint. -/
def sampleImage : MetadataImage :=
  ⟨"otmp.metadata.sqlite3-cow.v1", 512, 2,
    ⟨0, "_otmp/checkpoints/a", showingDigest twoPages, 1024⟩, none, some sampleIndex,
    showingDigest twoPages⟩

/-- A store that holds the nodes, and nothing else. -/
def sampleStore (uri : String) : Except RuntimeError Bytes :=
  match sampleObjects.find? (fun a => decide (a.uri = uri)) with
  | none => .error (.corrupt "missing")
  | some a => .ok a.bytes

/-- The checkpoint has two pages of 512 bytes. -/
theorem length_twoPages : twoPages.length = 1024 := by
  rw [twoPages, evenPage, evenPage, List.length_append, List.length_replicate,
    List.length_replicate]

/-- The hashes of its pages. -/
theorem pageHashes_twoPages : pageHashes showingDigest 512 twoPages =
    [showingDigest (evenPage 7), showingDigest (evenPage 8)] := by
  have hlength (byte : UInt8) : (evenPage byte).length = 512 := List.length_replicate
  have hpage (byte : UInt8) : chunks 512 (evenPage byte) = [evenPage byte] :=
    chunks_of_length_le (by decide) (fun hnil => by simpa [hnil] using hlength byte)
      (hlength byte).le
  rw [pageHashes, twoPages, chunks_append (by decide) ⟨1, hlength 7⟩, hpage, hpage]
  rfl

/-- The hash tells the nodes apart. -/
theorem sampleObjects_injOn : Set.InjOn showingDigest (storedBytes sampleObjects) := by
  have hall : ∀ a ∈ sampleObjects, ∀ b ∈ sampleObjects,
      showingDigest a.bytes = showingDigest b.bytes → a.bytes = b.bytes := by decide +kernel
  rintro _ ⟨a, ha, rfl⟩ _ ⟨b, hb, rfl⟩ heq
  exact hall a ha b hb heq

/-- Each node is read back. -/
theorem sampleStore_eq : ∀ a ∈ sampleObjects, sampleStore a.uri = .ok a.bytes := by
  have hall : ∀ a ∈ sampleObjects,
      sampleObjects.find? (fun b => decide (b.uri = a.uri)) = some a := by decide +kernel
  intro a ha
  rw [sampleStore, hall a ha]

/-- The leaves can be written. -/
theorem good_sampleLeaf {first : ℕ} (byte : UInt8) (hfirst : 0 < first) (hfits : first < 8) :
    Good (sampleLeaf first byte) :=
  good_leaf hfirst (List.cons_ne_nil _ _) (show 1 ≤ 128 by decide)
    (show first + 1 < 18446744073709551616 by omega)

/-- The leaves cover both pages. -/
theorem cover_sampleParts : Cover (IsTree showingDigest sampleObjects 0) 1 sampleParts
    [showingDigest (evenPage 7), showingDigest (evenPage 8)] :=
  ⟨[showingDigest (evenPage 7)], _, rfl, List.cons_ne_nil _ _, rfl, rfl,
    ⟨good_sampleLeaf 7 (by decide) (by decide), rfl, List.mem_cons_self⟩,
    [showingDigest (evenPage 8)], _, rfl, List.cons_ne_nil _ _, rfl, rfl,
    ⟨good_sampleLeaf 8 (by decide) (by decide), rfl,
      List.mem_cons_of_mem _ List.mem_cons_self⟩, rfl⟩

/-- The index is a tree with an internal node. -/
theorem isTree_sampleRoot : IsTree showingDigest sampleObjects 1 1
    [showingDigest (evenPage 7), showingDigest (evenPage 8)] sampleIndex.root.reference :=
  ⟨sampleParts, ⟨good_internal cover_sampleParts (List.cons_ne_nil _ _) (by decide) (by decide)
    (by decide) (by decide), rfl,
    List.mem_cons_of_mem _ (List.mem_cons_of_mem _ List.mem_cons_self)⟩, cover_sampleParts⟩

/-- The index binds the checkpoint. -/
theorem validate_sampleIndex : sampleIndex.validate sampleImage.checkpoint 512 = .ok () := by
  decide +kernel

/-- The check of the whole index accepts it. -/
theorem verify_sampleIndex :
    verifyCheckpointIndex showingDigest sampleStore sampleImage twoPages = .ok () := by
  have hlength : twoPages.length = 1024 := length_twoPages
  have hmatches : Matches showingDigest 512 twoPages 1
      [showingDigest (evenPage 7), showingDigest (evenPage 8)] := by
    exact pageHashes_twoPages ▸
      @matches_pageHashes showingDigest 512 twoPages (by decide) ⟨2, hlength⟩
  obtain ⟨seen, hseen, -⟩ := verifyCheckpointIndexNode_eq_ok sampleObjects_injOn sampleStore_eq
    (by decide) (hlength.trans_lt (by decide)) isTree_sampleRoot Nat.one_pos (by decide) hmatches
    (fun uri (huri : uri ∈ []) => absurd huri List.not_mem_nil)
  have hindex : sampleImage.checkpointPageIndex = some sampleIndex := rfl
  have hsize : sampleImage.pageSize = 512 := rfl
  rw [verifyCheckpointIndex, hindex]
  dsimp only
  rw [hsize, validate_sampleIndex]
  exact (ok_bind rfl).trans (ok_bind hseen)

/-- The path to the second page of a checkpoint goes over the node above its leaf. -/
theorem accepted_index_paths_second : checkpointHash showingDigest sampleStore (fun _ => .ok ())
    (some sampleIndex) 2 = .ok (showingDigest (slice twoPages 512 512)) := by
  have hpage := @accepted_index_paths showingDigest sampleStore twoPages 2 (fun _ => .ok ())
    sampleImage sampleIndex rfl length_twoPages.symm verify_sampleIndex (by decide) (by decide)
  obtain hpage | ⟨e, ⟨node, r, -, -, -, hrefused⟩, -⟩ := hpage
  · exact hpage
  · cases hrefused

end Paths

end Otmp.CheckpointTree
