import Otmp.Foundation.CborReaders
import Otmp.Protocol.ObjectCodecs

/-!
# Locations named by content

An object that is named by its hash lives in a fixed directory, under the hexadecimal text of the
hash. Such a location is safe, and its length is known.
-/

namespace Otmp

open Foundation Cbor

/-- A part of a safe location: neither empty nor a dot part, and without any character that
separates parts. -/
structure IsPart (part : List Char) : Prop where
  nonempty : part ≠ []
  notDot : part ≠ ['.']
  notDots : part ≠ ['.', '.']
  plain : ∀ c ∈ part, c ≠ '/' ∧ c ≠ Char.ofNat 92 ∧ c ≠ ':'

/-- Three parts that are neither empty nor dots make a safe location. -/
theorem safeRelativeUri_of_parts {a b c : List Char} (ha : IsPart a) (hb : IsPart b)
    (hc : IsPart c) : safeRelativeUri (String.ofList (a ++ '/' :: (b ++ '/' :: c))) = true := by
  have hslash : ∀ {part : List Char}, IsPart part → '/' ∉ part :=
    fun hpart hmem => (hpart.plain '/' hmem).1 rfl
  have hsplit : (a ++ '/' :: (b ++ '/' :: c)).splitOn '/' = [a, b, c] := by
    rw [List.splitOn_append_cons_self_of_not_mem (hslash ha),
      List.splitOn_append_cons_self_of_not_mem (hslash hb), List.splitOn_eq_singleton (hslash hc)]
  have hhead : (a ++ '/' :: (b ++ '/' :: c)).head? ≠ some '/' := by
    rw [List.head?_append_of_ne_nil _ ha.nonempty]
    exact fun h => hslash ha (List.mem_of_head? h)
  have hlast : (a ++ '/' :: (b ++ '/' :: c)).getLast? ≠ some '/' := by
    have hassoc : a ++ '/' :: (b ++ '/' :: c) = (a ++ '/' :: (b ++ ['/'])) ++ c := by simp
    rw [hassoc, List.getLast?_append_of_ne_nil _ hc.nonempty]
    exact fun h => hslash hc (List.mem_of_getLast? h)
  have hmem : ∀ x ∈ a ++ '/' :: (b ++ '/' :: c), x ≠ Char.ofNat 92 ∧ x ≠ ':' := by
    intro x hx
    simp only [List.mem_append, List.mem_cons] at hx
    obtain hx | rfl | hx | rfl | hx := hx
    · exact (ha.plain x hx).2
    · exact ⟨by decide, by decide⟩
    · exact (hb.plain x hx).2
    · exact ⟨by decide, by decide⟩
    · exact (hc.plain x hx).2
  have hback : Char.ofNat 92 ∉ a ++ '/' :: (b ++ '/' :: c) := fun h => (hmem _ h).1 rfl
  have hcolon : ':' ∉ a ++ '/' :: (b ++ '/' :: c) := fun h => (hmem _ h).2 rfl
  have hany : ([a, b, c].any fun part => part.isEmpty || part == ['.'] || part == ['.', '.']) =
      false := by
    have hpart : ∀ {part : List Char}, IsPart part →
        (part.isEmpty || part == ['.'] || part == ['.', '.']) = false := by
      intro part hpart
      simp [hpart.nonempty, hpart.notDot, hpart.notDots]
    simp only [List.any_cons, List.any_nil, hpart ha, hpart hb, hpart hc, Bool.or_false]
  have hempty : (a ++ '/' :: (b ++ '/' :: c)).isEmpty = false := by simp
  simp only [safeRelativeUri, String.toList_ofList, hsplit, hany, hempty, List.contains_eq_mem,
    hback, hcolon, beq_eq_false_iff_ne.mpr hhead, beq_eq_false_iff_ne.mpr hlast, decide_false,
    Bool.or_false, Bool.not_false]

/-- The characters of hexadecimal text are plain. -/
theorem plain_of_isLowerHex {c : Char} (h : isLowerHex c = true) :
    c ≠ '/' ∧ c ≠ Char.ofNat 92 ∧ c ≠ ':' := by
  refine ⟨?_, ?_, ?_⟩ <;>
  · rintro rfl
    revert h
    decide

/-- Hexadecimal text with an extension is a part. -/
theorem isPart_hexEncode {bytes : Bytes} {extension : List Char} (hbytes : 2 ≤ bytes.length)
    (hplain : ∀ c ∈ extension, c ≠ '/' ∧ c ≠ Char.ofNat 92 ∧ c ≠ ':') :
    IsPart (hexEncode bytes ++ extension) := by
  have hlength : 4 ≤ (hexEncode bytes ++ extension).length := by
    rw [List.length_append, length_hexEncode]
    omega
  refine ⟨?_, ?_, ?_, fun c hc => ?_⟩
  · intro h
    simp [h] at hlength
  · intro h
    simp [h] at hlength
  · intro h
    simp [h] at hlength
  · obtain hc | hc := List.mem_append.mp hc
    · exact plain_of_isLowerHex (isLowerHex_of_mem_hexEncode hc)
    · exact hplain c hc

/-- The length of a text's bytes is its size in UTF-8. -/
theorem length_utf8 (value : String) : (utf8 value).length = value.utf8ByteSize := by
  rw [utf8, Array.length_toList]
  rfl

/-- Hexadecimal text takes one byte for each digit. -/
theorem utf8ByteSize_hexEncode (bytes : Bytes) :
    (String.ofList (hexEncode bytes)).utf8ByteSize = 2 * bytes.length := by
  have hsize : ∀ cs : List Char, (∀ c ∈ cs, isLowerHex c = true) →
      (String.ofList cs).utf8ByteSize = cs.length := by
    intro cs hcs
    rw [← String.size_toByteArray, String.toByteArray_ofList]
    change (cs.flatMap String.utf8EncodeChar).toByteArray.size = _
    rw [List.size_toByteArray]
    induction cs with
    | nil => rfl
    | cons c cs ih =>
      have hc : c.utf8Size = 1 := by
        rw [Char.utf8Size_eq_one_iff, UInt32.le_iff_toNat_le]
        have hlower := hcs c List.mem_cons_self
        simp only [isLowerHex, decide_eq_true_eq, Char.le_def, UInt32.le_iff_toNat_le] at hlower
        change c.val.toNat ≤ 127
        have hdigit : '9'.val.toNat = 57 ∧ 'f'.val.toNat = 102 := ⟨rfl, rfl⟩
        omega
      have hrest := ih fun c' hc' => hcs c' (List.mem_cons_of_mem _ hc')
      rw [List.flatMap_cons, List.length_append, String.length_utf8EncodeChar, hc, hrest,
        List.length_cons]
      omega
  rw [hsize _ fun c hc => isLowerHex_of_mem_hexEncode hc, length_hexEncode]

end Otmp
