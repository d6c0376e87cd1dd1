import Std.Data.ExtTreeSet
import Otmp.CowWriter.Storage

/-!
# Freezing a candidate image

A finished candidate is frozen into its length and the pages that differ from
the parent. Only touched pages are compared: those written, and those behind the
visible part of the parent. Materializing the frozen image applies the changed
pages to a copy of the parent.
-/

namespace Otmp.CowWriter

open Foundation

/-- A finished candidate image: the parent, the final length and the changed pages
by one-based page number. -/
structure FrozenImage where
  parent : Bytes
  length : ℕ
  changed : Std.ExtTreeMap ℕ Page compare
  aligned : length % 4096 = 0
  /-- Every changed page lies inside the image. -/
  changed_inside : ∀ n page, changed[n]? = some page → 1 ≤ n ∧ 4096 * n ≤ length

namespace FrozenImage

/-- Copy one changed page into the image, as far as the image reaches; a page behind the image's end
is left out. -/
def patchPage (length : ℕ) (bytes : Bytes) (entry : ℕ × Page) : Bytes :=
  let start := 4096 * (entry.1 - 1)
  overwrite bytes start (entry.2.val.take (min 4096 (length - start)))

/-- The bytes of a frozen image: the parent's prefix with the changed pages on top. -/
def materialize (f : FrozenImage) : Bytes :=
  let copied := min f.parent.length f.length
  f.changed.toList.foldl (patchPage f.length)
    (overwrite (List.replicate f.length 0) 0 (f.parent.take copied))

/-- Putting a page that lies inside the file is overwriting its bytes at the page's place. -/
private theorem patchPage_inside {length : ℕ} {bytes : Bytes} {entry : ℕ × Page}
    (hlength : bytes.length = length) (hlow : 1 ≤ entry.1) (hhigh : 4096 * entry.1 ≤ length) :
    patchPage length bytes entry = overwrite bytes (4096 * (entry.1 - 1)) entry.2.val ∧
      4096 * (entry.1 - 1) + entry.2.val.length ≤ bytes.length := by
  have hpage : entry.2.val.length = 4096 := entry.2.property
  refine ⟨?_, by omega⟩
  rw [patchPage, List.take_of_length_le (by omega)]

/-- Patching a page inside the image keeps the image's length. -/
theorem length_patchPage {length : ℕ} {bytes : Bytes} {entry : ℕ × Page}
    (hlength : bytes.length = length) (hlow : 1 ≤ entry.1) (hhigh : 4096 * entry.1 ≤ length) :
    (patchPage length bytes entry).length = length := by
  obtain ⟨hpatch, hroom⟩ := patchPage_inside hlength hlow hhigh
  rw [hpatch, length_overwrite hroom, hlength]

/-- Patching a page changes exactly the positions of that page. -/
theorem getD_patchPage {length : ℕ} {bytes : Bytes} {entry : ℕ × Page}
    (hlength : bytes.length = length) (hlow : 1 ≤ entry.1) (hhigh : 4096 * entry.1 ≤ length)
    (pos : ℕ) :
    (patchPage length bytes entry).getD pos 0 =
      if pos / 4096 + 1 = entry.1 then entry.2.val.getD (pos % 4096) 0 else bytes.getD pos 0 := by
  obtain ⟨hpatch, hroom⟩ := patchPage_inside hlength hlow hhigh
  have hpage : entry.2.val.length = 4096 := entry.2.property
  rw [hpatch, getD_overwrite hroom]
  by_cases hin : pos / 4096 + 1 = entry.1
  · rw [if_pos hin, if_pos (by omega)]
    congr 1
    omega
  · rw [if_neg hin, if_neg (by omega)]

/-- Patching keeps the image's length over a whole list of pages. -/
theorem length_foldl_patchPage {length : ℕ} {entries : List (ℕ × Page)} {bytes : Bytes}
    (hlength : bytes.length = length)
    (hinside : ∀ entry ∈ entries, 1 ≤ entry.1 ∧ 4096 * entry.1 ≤ length) :
    (entries.foldl (patchPage length) bytes).length = length := by
  induction entries generalizing bytes with
  | nil => exact hlength
  | cons entry entries ih =>
    obtain ⟨hlow, hhigh⟩ := hinside entry List.mem_cons_self
    exact ih (length_patchPage hlength hlow hhigh)
      (fun e he => hinside e (List.mem_cons_of_mem _ he))

/-- A position outside all patched pages keeps its byte. -/
theorem getD_foldl_patchPage_of_notMem {length : ℕ} {entries : List (ℕ × Page)} {bytes : Bytes}
    (hlength : bytes.length = length)
    (hinside : ∀ entry ∈ entries, 1 ≤ entry.1 ∧ 4096 * entry.1 ≤ length) {pos : ℕ}
    (hpos : ∀ entry ∈ entries, entry.1 ≠ pos / 4096 + 1) :
    (entries.foldl (patchPage length) bytes).getD pos 0 = bytes.getD pos 0 := by
  induction entries generalizing bytes with
  | nil => rfl
  | cons entry entries ih =>
    obtain ⟨hlow, hhigh⟩ := hinside entry List.mem_cons_self
    rw [List.foldl_cons, ih (length_patchPage hlength hlow hhigh)
        (fun e he => hinside e (List.mem_cons_of_mem _ he))
        (fun e he => hpos e (List.mem_cons_of_mem _ he)),
      getD_patchPage hlength hlow hhigh, if_neg (hpos entry List.mem_cons_self).symm]

/-- A position inside a patched page shows that page, when no page is patched twice. -/
theorem getD_foldl_patchPage_of_mem {length : ℕ} {entries : List (ℕ × Page)} {bytes : Bytes}
    (hlength : bytes.length = length)
    (hinside : ∀ entry ∈ entries, 1 ≤ entry.1 ∧ 4096 * entry.1 ≤ length)
    (hdistinct : entries.Pairwise fun a b => a.1 ≠ b.1) {pos : ℕ} {page : Page}
    (hpage : (pos / 4096 + 1, page) ∈ entries) :
    (entries.foldl (patchPage length) bytes).getD pos 0 = page.val.getD (pos % 4096) 0 := by
  induction entries generalizing bytes with
  | nil => cases hpage
  | cons entry entries ih =>
    obtain ⟨hlow, hhigh⟩ := hinside entry List.mem_cons_self
    have hlength' := length_patchPage hlength hlow hhigh
    have hrest := fun e he => hinside e (List.mem_cons_of_mem entry he)
    obtain ⟨hhead, htail⟩ := List.pairwise_cons.mp hdistinct
    rw [List.foldl_cons]
    obtain heq | hmem := List.mem_cons.mp hpage
    · subst heq
      rw [getD_foldl_patchPage_of_notMem hlength' hrest (fun e he => (hhead e he).symm),
        getD_patchPage hlength hlow hhigh, if_pos rfl]
    · exact ih hlength' hrest htail hmem

/-- The changed pages of a frozen image all lie inside it. -/
private theorem entries_inside (f : FrozenImage) :
    ∀ entry ∈ f.changed.toList, 1 ≤ entry.1 ∧ 4096 * entry.1 ≤ f.length := by
  intro entry hentry
  exact f.changed_inside entry.1 entry.2
    (Std.ExtTreeMap.mem_toList_iff_getElem?_eq_some.mp hentry)

/-- The bytes that the changed pages are put over have the length of the image. -/
private theorem length_base (f : FrozenImage) :
    (overwrite (List.replicate f.length (0 : UInt8)) 0
      (f.parent.take (min f.parent.length f.length))).length = f.length := by
  rw [length_overwrite (by rw [List.length_take, List.length_replicate]; omega),
    List.length_replicate]

/-- A materialized image has the frozen length. -/
theorem length_materialize (f : FrozenImage) : f.materialize.length = f.length :=
  length_foldl_patchPage (length_base f) (entries_inside f)

/-- A materialized image shows the changed pages, and the parent elsewhere. -/
theorem getD_materialize (f : FrozenImage) {pos : ℕ} (hpos : pos < f.length) :
    f.materialize.getD pos 0 =
      match f.changed[pos / 4096 + 1]? with
      | some page => page.val.getD (pos % 4096) 0
      | none => f.parent.getD pos 0 := by
  unfold materialize
  cases hfound : f.changed[pos / 4096 + 1]? with
  | some page =>
    have hdistinct := f.changed.distinct_keys_toList.imp
      (fun {a b} h heq => h (compare_eq_iff_eq.mpr heq) : ∀ {a b : ℕ × Page},
        ¬compare a.1 b.1 = .eq → a.1 ≠ b.1)
    exact getD_foldl_patchPage_of_mem (length_base f) (entries_inside f) hdistinct
      (Std.ExtTreeMap.mem_toList_iff_getElem?_eq_some.mpr hfound)
  | none =>
    have habsent : ∀ entry ∈ f.changed.toList, entry.1 ≠ pos / 4096 + 1 := by
      intro entry hentry heq
      have hsome := Std.ExtTreeMap.mem_toList_iff_getElem?_eq_some.mp hentry
      rw [heq, hfound] at hsome
      cases hsome
    simp only []
    rw [getD_foldl_patchPage_of_notMem (length_base f) (entries_inside f) habsent,
      getD_overwrite (by rw [List.length_take, List.length_replicate]; omega), List.length_take]
    by_cases hparent : pos < f.parent.length
    · rw [if_pos (by omega), List.getD_eq_getElem?_getD, List.getD_eq_getElem?_getD,
        Nat.sub_zero, List.getElem?_take_of_lt (by omega)]
    · rw [if_neg (by omega), List.getD_eq_getElem?_getD, List.getD_eq_getElem?_getD,
        List.getElem?_replicate, List.getElem?_eq_none (by omega)]
      split <;> rfl

end FrozenImage

namespace Overlay

/-- The page indices that a freeze compares with the parent. -/
def touched (o : Overlay) : Std.ExtTreeSet ℕ compare :=
  Std.ExtTreeSet.ofList
    (o.pages.keys ++
      List.range' (o.parentLimit / 4096) ((o.length + 4095) / 4096 - o.parentLimit / 4096))
    compare

/-- One whole page as the overlay shows it: the changed page where there is one, the parent's bytes
and zeros elsewhere. -/
def pageAt (o : Overlay) (index : ℕ) : Page :=
  ⟨(o.readAt (4096 * index) (List.replicate 4096 0)).2, by
    rw [length_readAt, List.length_replicate]⟩

/-- The page of a touched index, when it lies inside the image and is not the parent's. -/
def changedPage (o : Overlay) (index : ℕ) : Option Page :=
  if 4096 * index ≥ o.length then none
  else if getRange? o.parent (4096 * index) (4096 * (index + 1)) ≠ some (o.pageAt index).val then
    some (o.pageAt index)
  else none

/-- Record one touched page with its changed bytes, under its number from one on. -/
def freezePage (o : Overlay) (changed : Std.ExtTreeMap ℕ Page compare) (index : ℕ) :
    Std.ExtTreeMap ℕ Page compare :=
  match o.changedPage index with
  | some page => changed.insert (index + 1) page
  | none => changed

/-- The changed pages of the overlay, by one-based page number. -/
def changedPages (o : Overlay) : Std.ExtTreeMap ℕ Page compare :=
  o.touched.toList.foldl o.freezePage ∅

/-- The pages that a freeze collects: the overlay's own where it has them, else those from before.
-/
private theorem getElem?_foldl_freezePage (o : Overlay) (indices : List ℕ)
    (changed : Std.ExtTreeMap ℕ Page compare) (n : ℕ) :
    (indices.foldl o.freezePage changed)[n]? =
      if 1 ≤ n ∧ n - 1 ∈ indices then (o.changedPage (n - 1)).or changed[n]? else changed[n]? := by
  induction indices generalizing changed with
  | nil => simp
  | cons index indices ih =>
    have hhead : (o.freezePage changed index)[n]? =
        if n = index + 1 then (o.changedPage index).or changed[n]? else changed[n]? := by
      unfold freezePage
      cases hpage : o.changedPage index with
      | none => simp
      | some page =>
        simp only [Std.ExtTreeMap.getElem?_insert, compare_eq_iff_eq, Option.some_or,
          eq_comm (a := n)]
    rw [List.foldl_cons, ih, hhead]
    by_cases hn : n = index + 1
    · subst hn
      simp only [Nat.add_sub_cancel, List.mem_cons, true_or, and_true, if_true]
      rw [if_pos (Nat.le_add_left 1 index)]
      split
      · cases o.changedPage index <;> simp
      · rfl
    · have hmem : (1 ≤ n ∧ n - 1 ∈ index :: indices) ↔ (1 ≤ n ∧ n - 1 ∈ indices) := by
        rw [List.mem_cons]
        constructor
        · rintro ⟨hpos, hcase | hcase⟩
          · omega
          · exact ⟨hpos, hcase⟩
        · rintro ⟨hpos, hcase⟩
          exact ⟨hpos, .inr hcase⟩
      simp only [if_neg hn, hmem]

/-- The changed pages are those found at touched indices. -/
theorem changedPages_eq_some (o : Overlay) {n : ℕ} {page : Page} :
    o.changedPages[n]? = some page ↔
      1 ≤ n ∧ n - 1 ∈ o.touched ∧ o.changedPage (n - 1) = some page := by
  rw [changedPages, getElem?_foldl_freezePage, Std.ExtTreeMap.getElem?_empty]
  simp only [Std.ExtTreeSet.mem_toList, Option.or_none]
  split
  · rename_i h
    simp [h.1, h.2]
  · rename_i h
    simp only [reduceCtorEq, false_iff]
    tauto

/-- A changed page is the overlay's page, lies inside the image and differs from the parent. -/
theorem changedPage_eq_some {o : Overlay} {index : ℕ} {page : Page} :
    o.changedPage index = some page ↔
      4096 * index < o.length ∧ page = o.pageAt index ∧
        getRange? o.parent (4096 * index) (4096 * (index + 1)) ≠ some page.val := by
  unfold changedPage
  split
  · rename_i h
    simp only [reduceCtorEq, false_iff]
    omega
  · rename_i h
    constructor
    · intro hsome
      split at hsome
      · rename_i hdiff
        cases hsome
        exact ⟨by omega, rfl, hdiff⟩
      · cases hsome
    · rintro ⟨-, rfl, hdiff⟩
      rw [if_pos hdiff]

/-- `close_and_freeze`: a candidate whose storage never failed gives up its length and its changed
pages; after a failure there is nothing to freeze. -/
def closeAndFreeze (o : Overlay) : Except LimboError FrozenImage :=
  if o.failed then
    .error (.internalError "candidate storage failed before freeze")
  else if h : o.length % 4096 ≠ 0 then
    .error (.invalidArgument "unaligned frozen image")
  else
    .ok
      { parent := o.parent
        length := o.length
        changed := o.changedPages
        aligned := by omega
        changed_inside := by
          intro n page hpage
          obtain ⟨hlow, -, hchanged⟩ := o.changedPages_eq_some.mp hpage
          obtain ⟨hinside, -, -⟩ := changedPage_eq_some.mp hchanged
          omega }

/-- A whole page inside the image shows the overlay's bytes. -/
theorem getD_pageAt {o : Overlay} {index i : ℕ} (hi : i < 4096)
    (hinside : 4096 * index + i < o.length) :
    (o.pageAt index).val.getD i 0 = o.byteAt (4096 * index + i) := by
  simp only [pageAt]
  rw [getD_readAt, List.length_replicate, if_pos (by omega)]

/-- An untouched index of the image lies in the visible part of the parent. -/
theorem not_mem_touched {o : Overlay} {index : ℕ} (h : index ∉ o.touched)
    (hinside : 4096 * index < o.length) :
    o.pages[index]? = none ∧ 4096 * (index + 1) ≤ o.parentLimit := by
  simp only [touched, Std.ExtTreeSet.mem_ofList, List.contains_iff_mem, List.mem_append,
    Std.ExtTreeMap.mem_keys, List.mem_range'_1, not_or] at h
  refine ⟨Std.ExtTreeMap.getElem?_eq_none h.1, ?_⟩
  omega

/-- An index is left out of the changed pages only when the overlay shows the parent's page. -/
theorem changedPages_eq_none {o : Overlay} {n : ℕ} (hlow : 1 ≤ n) (haligned : 4096 * n ≤ o.length)
    (hnone : o.changedPages[n]? = none) :
    getRange? o.parent (4096 * (n - 1)) (4096 * n) = some (o.pageAt (n - 1)).val := by
  have hn : n - 1 + 1 = n := by omega
  by_cases htouched : n - 1 ∈ o.touched
  · by_contra hdiff
    have hpage : o.changedPage (n - 1) = some (o.pageAt (n - 1)) :=
      changedPage_eq_some.mpr ⟨by omega, rfl, by rw [hn]; exact hdiff⟩
    rw [o.changedPages_eq_some.mpr ⟨hlow, htouched, hpage⟩] at hnone
    cases hnone
  · obtain ⟨habsent, hvisible⟩ := not_mem_touched htouched (by omega)
    have hparent := o.limit_le_parent
    rw [getRange?_eq_some]
    refine ⟨by omega, by omega, ?_⟩
    have hlength : (slice o.parent (4096 * (n - 1)) (4096 * n - 4096 * (n - 1))).length = 4096 := by
      rw [length_slice (by omega)]
      omega
    have hpage : (o.pageAt (n - 1)).val.length = 4096 := (o.pageAt (n - 1)).property
    apply eq_of_getD 0 (by rw [hlength, hpage])
    intro i hi
    rw [hlength] at hi
    have hindex : (4096 * (n - 1) + i) / 4096 = n - 1 := by omega
    rw [getD_slice, if_pos (by omega), getD_pageAt hi (by omega), byteAt, hindex, habsent]
    simp only []
    rw [if_pos (by omega)]

end Overlay

end Otmp.CowWriter
