import Otmp.Protocol.Records

/-!
# The readers of identifiers, hashes, locations and feature sets

The scalar parts of protocol objects have one spelling each: what their readers accept
is what is written for the value read.
-/

namespace Otmp

open Foundation CanonicalValue TypedScalar

namespace Id

/-- Read an identifier that the runtime may have drawn. -/
def parse (input : String) : Except ProtocolError Id := do
  let id ← UuidValue.parse input
  if Id.isV7 id then .ok id else .error (.invalidId input)

end Id

namespace Sha256

/-- Read the text of a hash: its prefix and 64 lower-case hexadecimal digits. -/
def parse (input : String) : Except ProtocolError Sha256 :=
  let cs := input.toList
  if cs.take 7 ≠ ['s', 'h', 'a', '2', '5', '6', ':'] then .error (.invalidHash input)
  else if (cs.drop 7).length ≠ 64 ∨ !(cs.drop 7).all isLowerHex then .error (.invalidHash input)
  else
    match hexDecode? (cs.drop 7) with
    | some bytes =>
      if h : bytes.length = 32 then .ok ⟨bytes, h⟩ else .error (.invalidHash input)
    | none => .error (.invalidHash input)

/-- Only the printed form of a hash is read. -/
theorem parse_eq_ok {text : String} {hash : Sha256} (h : parse text = .ok hash) :
    text = hash.format := by
  unfold parse at h
  dsimp only at h
  obtain ⟨hfront, h⟩ := ite_error_eq_ok.mp h
  obtain ⟨hform, h⟩ := ite_error_eq_ok.mp h
  rw [not_not] at hfront
  rw [not_or, not_not] at hform
  split at h
  · rename_i bytes hbytes
    split at h
    · cases h
      have hlower : (text.toList.drop 7).all isLowerHex = true := by simpa using hform.2
      have hhex := (hexEncode_of_hexDecode? hbytes).mpr hlower
      rw [format, hhex, ← String.toList_inj, String.toList_append, String.toList_ofList,
        String.toList_ofList, ← hfront, List.take_append_drop]
    · cases h
  · cases h

/-- The printed form of a hash is read. -/
theorem parse_format (hash : Sha256) : parse hash.format = .ok hash := by
  have htext : hash.format.toList = ['s', 'h', 'a', '2', '5', '6', ':'] ++ hexEncode hash.val := by
    rw [format, String.toList_append, String.toList_ofList, String.toList_ofList]
  have htake : hash.format.toList.take 7 = ['s', 'h', 'a', '2', '5', '6', ':'] := by
    rw [htext]
    exact List.take_left' rfl
  have hdrop : hash.format.toList.drop 7 = hexEncode hash.val := by
    rw [htext]
    exact List.drop_left' rfl
  have hlength : (hexEncode hash.val).length = 64 := by
    rw [length_hexEncode, hash.property]
  have hlower : (hexEncode hash.val).all isLowerHex = true :=
    List.all_eq_true.mpr fun c hc => isLowerHex_of_mem_hexEncode hc
  unfold parse
  simp only [htake, hdrop, hlength, hlower, hexDecode?_hexEncode, ne_eq, not_true_eq_false,
    if_false, Bool.not_true, Bool.false_eq_true, or_self, hash.property, dif_pos]

end Sha256

/-- The check of a location: relative, without a scheme, and without empty or dot parts. -/
def safeRelativeUri (value : String) : Bool :=
  let cs := value.toList
  !(cs.isEmpty || cs.head? == some '/' || cs.getLast? == some '/' ||
    cs.contains (Char.ofNat 92) || cs.contains ':' ||
    (cs.splitOn '/').any fun part => part.isEmpty || part == ['.'] || part == ['.', '.'])

/-- A character of a feature name: a lower-case letter, a digit or one of three signs. -/
def featureChar (c : Char) : Bool :=
  ('a' ≤ c && c ≤ 'z') || c.isDigit || c == '.' || c == '-' || c == '_'

/-- The check of feature names after a given one. -/
def featuresAfter : Option String → List String → Except ProtocolError Unit
  | _, [] => .ok ()
  | previous, feature :: features =>
    if feature.toList.isEmpty ∨ !feature.toList.all featureChar ∨ previous.any (· ≥ feature) then
      .error (.invalidFeatureSet feature)
    else featuresAfter (some feature) features

namespace CanonicalValue

/-- Read a string, as a member that has to be one. -/
def readText (value : CanonicalValue) : Except ProtocolError String := takeString (some value)

/-- Read a number from its decimal string, which has no sign and no leading zero. -/
def readU64 (value : CanonicalValue) : Except ProtocolError ℕ := do
  let text ← readText value
  let cs := text.toList
  if cs.head? = some '+' ∨ (cs.head? = some '0' ∧ 1 < cs.length) then
    deError "invalid decimal integer"
  else
    match decimalNat? cs with
    | some n => if n < 18446744073709551616 then .ok n else deError "invalid decimal integer"
    | none => deError "invalid decimal integer"

/-- Read a signed number of 64 bits from its decimal string. -/
def readI64 (value : CanonicalValue) : Except ProtocolError ℤ :=
  (takeI64 (some value)).map Int64.toInt

/-- Read a small number, which is written as a JSON integer of 32 bits. -/
def readNat32 (value : CanonicalValue) : Except ProtocolError ℕ :=
  (takeU32 "integer" (some value)).map UInt32.toNat

/-- Read an identifier, which has to be one that the runtime makes. -/
def readId (value : CanonicalValue) : Except ProtocolError Id := do
  let text ← readText value
  Id.parse text

/-- Read a hash from its text. -/
def readHash (value : CanonicalValue) : Except ProtocolError Sha256 := do
  let text ← readText value
  Sha256.parse text

/-- Read a location, which has to be a safe relative one. -/
def readUri (value : CanonicalValue) : Except ProtocolError String := do
  let text ← readText value
  if safeRelativeUri text then .ok text else .error (.unsafeRelativeUri text)

/-- Read an array, element by element up to the first failure. -/
def readArray {α : Type} (read : CanonicalValue → Except ProtocolError α) :
    CanonicalValue → Except ProtocolError (List α)
  | .array values => values.mapM read
  | _ => deError "expected array"

/-- Read a set of feature names, which are written in ascending order. -/
def readFeatures (value : CanonicalValue) : Except ProtocolError (List String) := do
  let features ← readArray readText value
  featuresAfter none features
  return features

/-- Read free-form members, whose values stay as they are. -/
def readMap : CanonicalValue → Except ProtocolError (List (String × CanonicalValue))
  | .object ms => .ok ms
  | _ => deError "expected object"

/-- Every spelling that is read is the one that is written. -/
def anySpelling (_ : CanonicalValue) : Bool := true

/-- The spelling of an array, which is that of its elements. -/
def arraySpelled (spelled : CanonicalValue → Bool) : CanonicalValue → Bool
  | .array values => values.all spelled
  | _ => false

/-- A text has one spelling, which is the text itself. -/
theorem readText_spelling : Spelling readText .string anySpelling fun _ => True where
  exact _ h := iff_of_true (Option.some.inj (takeString_eq_ok h)).symm rfl
  reads _ := rfl
  sorted _ := rfl

/-- An unsigned integer of 64 bits is a decimal text without redundant zeros, and has one spelling.
-/
theorem readU64_spelling :
    Spelling readU64 decimalString anySpelling (· < 18446744073709551616) where
  exact {value n} _ h := by
    obtain ⟨text, htext, h⟩ := bind_eq_ok.mp h
    obtain ⟨hform, h⟩ := ite_error_eq_ok.mp h
    rw [Option.some.inj (takeString_eq_ok htext)]
    split at h
    · rename_i m hm
      obtain ⟨-, h⟩ := ite_ok_eq_ok.mp h
      cases h
      rw [decimalNat?] at hm
      split at hm
      · rename_i hds
        cases hm
        have hzero : ∀ c tail, text.toList ≠ '0' :: c :: tail := by
          intro c tail heq
          refine hform (Or.inr ⟨by rw [heq]; rfl, ?_⟩)
          rw [heq, List.length_cons, List.length_cons]
          omega
        refine iff_of_true ?_ rfl
        rw [decimalString, toDigits_ofDigitChars hds.1 hds.2 hzero, String.ofList_toList]
      · cases hm
    · cases h
  reads {n} hn := by
    obtain ⟨c, cs, hcons, hdigit⟩ := toDigits_eq_cons n
    have hplus : c ≠ '+' := by
      rintro rfl
      exact absurd hdigit (by decide)
    have hform : ¬((Nat.toDigits 10 n).head? = some '+' ∨
        ((Nat.toDigits 10 n).head? = some '0' ∧ 1 < (Nat.toDigits 10 n).length)) := by
      rw [hcons]
      rintro (heq | ⟨heq, hlength⟩)
      · exact hplus (Option.some.inj heq)
      · have hc : c = '0' := Option.some.inj heq
        subst hc
        rw [toDigits_head_zero hcons, Nat.toDigits_zero] at hcons
        cases hcons
        exact absurd hlength (by decide)
    change (if (String.ofList (Nat.toDigits 10 n)).toList.head? = some '+' ∨ _ then _ else _) = _
    rw [String.toList_ofList, if_neg hform, decimalNat?_toDigits]
    exact if_pos hn
  sorted _ := rfl

/-- A signed integer of 64 bits is a decimal text without redundant sign or zeros, and has one
spelling. -/
theorem readI64_spelling : Spelling readI64 (fun n => .string (String.ofList (decimalInt n)))
    anySpelling (fun n => -9223372036854775808 ≤ n ∧ n < 9223372036854775808) where
  exact {value n} _ h := by
    obtain ⟨m, hm, rfl⟩ := map_eq_ok.mp h
    exact iff_of_true (Option.some.inj (takeI64_eq_ok hm)).symm rfl
  reads {n} hn := by
    have hread := takeI64_int64Value (Int64.ofInt n)
    have hback : (Int64.ofInt n).toInt = n := Int64.toInt_ofInt_of_le (by omega) (by omega)
    rw [int64Value, hback] at hread
    rw [readI64, hread]
    exact congrArg Except.ok hback
  sorted _ := rfl

/-- An integer of 32 bits is a JSON number and has one spelling. -/
theorem readNat32_spelling : Spelling readNat32 (fun n => .integer n) anySpelling
    (· < 4294967296) where
  exact {value n} _ h := by
    obtain ⟨m, hm, rfl⟩ := map_eq_ok.mp h
    exact iff_of_true (Option.some.inj (takeU32_eq_ok hm)).symm rfl
  reads {n} hn := by
    have hread := takeU32_toNat "integer" (UInt32.ofNat n)
    have hback : (UInt32.ofNat n).toNat = n := UInt32.toNat_ofNat_of_lt' hn
    rw [hback] at hread
    rw [readNat32, hread]
    exact congrArg Except.ok hback
  sorted _ := rfl

/-- An identifier is a lower-case UUID of version 7 and has one spelling. -/
theorem readId_spelling : Spelling readId (fun id => .string (UuidValue.format id)) anySpelling
    (fun id => id.isV7 = true) where
  exact {value id} _ h := by
    obtain ⟨text, htext, h⟩ := bind_eq_ok.mp h
    obtain ⟨id', hid, h⟩ := bind_eq_ok.mp h
    obtain ⟨-, h⟩ := ite_ok_eq_ok.mp h
    cases h
    rw [Option.some.inj (takeString_eq_ok htext), UuidValue.parse_eq_ok hid]
    exact iff_of_true rfl rfl
  reads {id} hid := by
    rw [readId, ok_bind (readText_spelling.reads trivial), Id.parse,
      ok_bind (UuidValue.parse_format id), if_pos hid]
  sorted _ := rfl

/-- A hash is the lower-case text of its bytes and has one spelling. -/
theorem readHash_spelling : Spelling readHash (fun hash => .string (Sha256.format hash))
    anySpelling (fun _ => True) where
  exact {value hash} _ h := by
    obtain ⟨text, htext, h⟩ := bind_eq_ok.mp h
    rw [Option.some.inj (takeString_eq_ok htext), Sha256.parse_eq_ok h]
    exact iff_of_true rfl rfl
  reads {hash} _ := Sha256.parse_format hash
  sorted _ := rfl

/-- A location is a safe relative one and has one spelling. -/
theorem readUri_spelling : Spelling readUri .string anySpelling
    (fun uri => safeRelativeUri uri = true) where
  exact {value uri} _ h := by
    obtain ⟨text, htext, h⟩ := bind_eq_ok.mp h
    obtain ⟨-, h⟩ := ite_ok_eq_ok.mp h
    cases h
    rw [Option.some.inj (takeString_eq_ok htext)]
    exact iff_of_true rfl rfl
  reads {uri} huri := if_pos huri
  sorted _ := rfl

/-- Arrays are spelled element by element, so that an array is spelled as it is written when its
elements are. -/
theorem readArray_spelling {α : Type} {read : CanonicalValue → Except ProtocolError α}
    {write : α → CanonicalValue} {spelled : CanonicalValue → Bool} {Good : α → Prop}
    (h : Spelling read write spelled Good) :
    Spelling (readArray read) (fun as => .array (as.map write)) (arraySpelled spelled)
      (fun as => ∀ a ∈ as, Good a) where
  exact {value as} hsorted hread := by
    cases value with
    | array values =>
      rw [CanonicalValue.array.injEq, arraySpelled, List.all_eq_true]
      have hvalues := sortedList_iff.mp hsorted
      change values.mapM read = .ok as at hread
      clear hsorted
      induction values generalizing as with
      | nil =>
        cases hread
        simp
      | cons value values ih =>
        rw [List.mapM_cons] at hread
        obtain ⟨a, ha, hread⟩ := bind_eq_ok.mp hread
        obtain ⟨as', has, hread⟩ := bind_eq_ok.mp hread
        cases hread
        rw [List.forall_mem_cons] at hvalues ⊢
        have htail : as'.map write = values ↔ ∀ value ∈ values, spelled value = true :=
          ih hvalues.2 has
        rw [List.map_cons, List.cons.injEq, h.exact hvalues.1 ha, htail]
    | _ => cases hread
  reads {as} has := by
    change (as.map write).mapM read = _
    have hread := mapM_map_eq_ok (k := id) fun a ha => h.reads (has a ha)
    rwa [List.map_id] at hread
  sorted {as} has := by
    refine sortedList_iff.mpr fun value hvalue => ?_
    obtain ⟨a, ha, rfl⟩ := List.mem_map.mp hvalue
    exact h.sorted (has a ha)

/-- A list of features is sorted without repetitions and has one spelling. -/
theorem readFeatures_spelling : Spelling readFeatures
    (fun features => .array (features.map .string))
    (arraySpelled anySpelling) (fun features => featuresAfter none features = .ok ()) where
  exact {value features} hsorted h := by
    obtain ⟨features', hread, h⟩ := bind_eq_ok.mp h
    obtain ⟨_, h⟩ := check_eq_ok.mp h
    cases h
    exact (readArray_spelling readText_spelling).exact hsorted hread
  reads {features} hfeatures := by
    have hread := (readArray_spelling readText_spelling).reads (a := features) fun _ _ => trivial
    rw [readFeatures, ok_bind hread, hfeatures]
    rfl
  sorted {features} _ :=
    (readArray_spelling readText_spelling).sorted (a := features) fun _ _ => trivial

/-- A map of values is an object in order of its names and has one spelling. -/
theorem readMap_spelling : Spelling readMap .object anySpelling
    (fun ms => (CanonicalValue.object ms).sorted = true) where
  exact {value ms} _ h := by
    cases value with
    | object ms' =>
      cases h
      exact iff_of_true rfl rfl
    | _ => cases h
  reads _ := rfl
  sorted h := h

/-- Free-form values are kept as they are. -/
theorem ok_spelling : Spelling Except.ok id anySpelling (fun value => value.sorted = true) where
  exact _ h := by
    cases h
    exact iff_of_true rfl rfl
  reads _ := rfl
  sorted h := h

/-- An array of values has one spelling when the values are sorted. -/
theorem readValues_spelling : Spelling (readArray .ok) .array (arraySpelled anySpelling)
    (fun values => ∀ value ∈ values, value.sorted = true) := by
  have h := readArray_spelling ok_spelling
  simpa only [List.map_id] using h

end CanonicalValue

end Otmp
